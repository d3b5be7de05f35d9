import BufferFusion.Proofs.Execution.Supplied
import BufferFusion.Proofs.Inference.Yields

/-!
# Fully connected

Data of `rows` rows and weights of `outputs` rows, both of `depth` values, make one value for each
pair of rows. Inference promises that many also where the rows have no values, and for a bias that
has none; there the kernel answers nothing, or faults.
-/
namespace BufferFusion

section Lists

variable {α β : Type} {size count i j : Nat} {xs : List α}

theorem getElem?_pieces (h : i < count) :
    (pieces size count xs)[i]? = some ((xs.drop (i * size)).take size) := by
  induction count generalizing xs i with
  | zero => cases h
  | succ count ih =>
    cases i with
    | zero => simp [pieces]
    | succ i =>
      rw [pieces, List.getElem?_cons_succ, ih (Nat.lt_of_succ_lt_succ h), List.drop_drop,
        Nat.succ_mul, Nat.add_comm size]

/-- An entry of lists of the same length that are joined. -/
theorem getElem?_flatMap_of_length {f : α → List β} {x : α} (hlen : ∀ x ∈ xs, (f x).length = size)
    (hx : xs[i]? = some x) (hj : j < size) : (xs.flatMap f)[i * size + j]? = (f x)[j]? := by
  induction xs generalizing i with
  | nil => cases hx
  | cons y ys ih =>
    rw [List.forall_mem_cons] at hlen
    rw [List.flatMap_cons]
    cases i with
    | zero =>
      obtain rfl := Option.some.inj hx
      rw [Nat.zero_mul, Nat.zero_add, List.getElem?_append_left (hlen.1 ▸ hj)]
    | succ i =>
      rw [List.getElem?_append_right (by rw [hlen.1, Nat.succ_mul]; omega), ← ih hlen.2 hx]
      congr 1
      rw [hlen.1, Nat.succ_mul]
      omega

theorem length_flatMap_of_length {f : α → List β} (hlen : ∀ x ∈ xs, (f x).length = size) :
    (xs.flatMap f).length = xs.length * size := by
  rw [List.length_flatMap, List.map_congr_left hlen]
  simp

end Lists

namespace Kernel

variable {data weights : Logical} {bias : Option Logical} {batch : List Nat}
  {rows outputs depth m n : Nat} {added : List Float}

/-- The sum over `k`, from the left, of the products of row `m` of the data and row `n` of the
weights. -/
def product (data weights : Logical) (depth m n : Nat) : Float :=
  (List.range depth).foldl (fun sum k =>
    sum + data.values.getD (m * depth + k) 0 * weights.values.getD (n * depth + k) 0)
    Lane.negativeZero

/-- One value for each row of the data and each row of the weights: the sum of products, and the
value of the bias for that output. -/
structure Connects (data weights : Logical) (bias : Option Logical) (rows outputs depth : Nat)
    (ys : List Float) : Prop where
  length : ys.length = rows * outputs
  entry : ∀ m n, m < rows → n < outputs → ys[m * outputs + n]? =
    some (product data weights depth m n + bias.elim 0 (·.values.getD n 0))

/-! ### One row of data -/

theorem dot_eq {xs ys : List Float} (hx : xs.length = depth) (hy : ys.length = depth) :
    dot xs ys = (List.range depth).foldl (fun sum k => sum + xs.getD k 0 * ys.getD k 0)
      Lane.negativeZero := by
  have hzip : List.zipWith (· * ·) xs ys =
      (List.range depth).map fun k => xs.getD k 0 * ys.getD k 0 :=
    List.ext_getElem (by simp [hx, hy]) fun k hk hk' => by
      have hk : k < depth := by simpa using hk'
      simp [hx, hy, hk]
  rw [dot, hzip, List.foldl_map]

/-- A row that is cut out of the values. -/
theorem length_row {v : Array Float} (hv : v.size = rows * depth) (hm : m < rows) :
    ((v.toList.drop (m * depth)).take depth).length = depth := by
  have : (m + 1) * depth ≤ rows * depth := Nat.mul_le_mul_right _ hm
  rw [Nat.succ_mul] at this
  rw [List.length_take, List.length_drop, Array.length_toList]
  omega

theorem getD_row (v : Array Float) {k : Nat} (hk : k < depth) :
    ((v.toList.drop (m * depth)).take depth).getD k 0 = v.getD (m * depth + k) 0 := by
  rw [List.getD_eq_getElem?_getD, List.getElem?_take_of_lt hk, List.getElem?_drop,
    Array.getD_eq_getD_getElem?, Array.getElem?_toList]

theorem dot_rows (hd : data.values.size = rows * depth) (hw : weights.values.size = outputs * depth)
    (hm : m < rows) (hn : n < outputs) :
    dot ((data.values.toList.drop (m * depth)).take depth)
      ((weights.values.toList.drop (n * depth)).take depth) = product data weights depth m n := by
  rw [dot_eq (length_row hd hm) (length_row hw hn), product]
  refine List.foldl_ext _ _ _ fun sum k hk => ?_
  rw [getD_row _ (List.mem_range.1 hk), getD_row _ (List.mem_range.1 hk)]

theorem length_connectRow {matrix : List (List Float)} {row : List Float}
    (h : matrix.length ≤ added.length) : (connectRow matrix added row).length = matrix.length := by
  rw [connectRow, List.length_zipWith, Nat.min_eq_left h]

/-- What is added to each output: its value of the bias, or nothing. -/
theorem addends_ok (h : ∀ b ∈ bias, outputs ≤ b.values.size) :
    ∃ added, addends outputs (bias.map (·.values.toList)) = .ok added ∧ outputs ≤ added.length ∧
      ∀ n, n < outputs → added[n]? = some (bias.elim 0 (·.values.getD n 0)) := by
  cases bias with
  | none =>
    refine ⟨_, rfl, by simp, fun n hn => ?_⟩
    rw [List.getElem?_replicate, if_pos hn]
    rfl
  | some b =>
    have hb := h b rfl
    refine ⟨b.values.toList, ?_, hb, fun n hn => ?_⟩
    · rw [Option.map_some, addends, if_pos (by simpa using hb)]
    · have hn : n < b.values.size := Nat.lt_of_lt_of_le hn hb
      simp [hn]

theorem addends_fault {b : Logical} (h : b.values.size < outputs) :
    addends outputs (some b.values.toList) = Result.fault .outOfRange := by
  rw [addends, if_neg (by simpa using h)]

/-! ### The kernel -/

section Sizes

variable (hd : data.sizes = batch ++ [depth]) (hw : weights.sizes = [outputs, depth])
  (hdv : data.values.size = rows * depth) (hwv : weights.values.size = outputs * depth)

include hd hw hdv

/-- Without a row, or without a value in a row, nothing is answered. -/
theorem fullyConnected_of_empty (h : depth = 0 ∨ rows = 0) (b : Option (List Float)) :
    fullyConnected data weights b = .ok [] := by
  have hrows : (if depth = 0 then 0 else data.values.size / depth) = 0 := by
    split
    · rfl
    · next hne => rw [hdv, h.resolve_left hne, Nat.zero_mul, Nat.zero_div]
  have hmul : Size.mul 0 outputs = .ok 0 := by
    rw [Size.mul_eq_ok, Nat.zero_mul]
    exact ⟨rfl, by decide⟩
  simp only [fullyConnected, hd, hw, List.getLast?_concat, hrows]
  rw [if_neg (not_not.2 rfl), hmul]
  rfl

include hwv

theorem fullyConnected_of_pos (hdepth : 0 < depth) (hrows : 0 < rows)
    (hroom : rows * outputs ≤ Size.capacity 8) (b : Option (List Float)) :
    fullyConnected data weights b = (fun added => (pieces depth rows data.values.toList).flatMap
      (connectRow (pieces depth outputs weights.values.toList) added)) <$> addends outputs b := by
  have hmul : Size.mul rows outputs = .ok (rows * outputs) :=
    Size.mul_eq_ok.2 ⟨rfl, Nat.lt_of_le_of_lt hroom (by decide)⟩
  simp only [fullyConnected, hd, hw, List.getLast?_concat]
  rw [if_neg (not_not.2 rfl), if_neg (Nat.ne_of_gt hdepth), hdv, hwv, Nat.max_eq_left hdepth,
    Nat.mul_div_cancel _ hdepth, Nat.mul_div_cancel _ hdepth, Nat.min_self, hmul,
    if_neg (Nat.ne_of_gt hrows), Tensor.length_pieces]
  simp only [bind, Except.bind, Size.reserve_eq_ok.2 hroom]
  cases addends outputs b <;> rfl

/-- Where a bias reaches as far as there are outputs, every value is answered. -/
theorem fullyConnected_connects (hdepth : 0 < depth) (hrows : 0 < rows)
    (hroom : rows * outputs ≤ Size.capacity 8) (hb : ∀ b ∈ bias, outputs ≤ b.values.size) :
    ∃ ys, fullyConnected data weights (bias.map (·.values.toList)) = .ok ys ∧
      Connects data weights bias rows outputs depth ys := by
  obtain ⟨added, hadded, hlen, hentry⟩ := addends_ok hb
  refine ⟨_, by rw [fullyConnected_of_pos hd hw hdv hwv hdepth hrows hroom, hadded]; rfl, ?_⟩
  have hmatrix := Tensor.length_pieces depth outputs weights.values.toList
  have hrow : ∀ row ∈ pieces depth rows data.values.toList,
      (connectRow (pieces depth outputs weights.values.toList) added row).length = outputs :=
    fun row _ => (length_connectRow (hmatrix.trans_le hlen)).trans hmatrix
  constructor
  · rw [length_flatMap_of_length hrow, Tensor.length_pieces]
  · intro m n hm hn
    rw [getElem?_flatMap_of_length hrow (getElem?_pieces hm) hn, connectRow, List.getElem?_zipWith,
      getElem?_pieces hn, hentry n hn]
    simp only [dot_rows hdv hwv hm hn]

end Sizes
end Kernel

/-! ### What inference accepts -/

namespace InferenceContext

/-- Values for an input whose layout is known: as many as its shape has elements. -/
def Feeds (c : InferenceContext) (slot : Nat) (v : Logical) : Prop :=
  ∃ l, c.input slot = .ok l ∧ l.shape.sizes? = some v.sizes ∧ v.values.size = v.sizes.prod

/-- Values for every input of a node that has data, weights and perhaps a bias. -/
structure Fed (c : InferenceContext) (data weights : Logical) (bias : Option Logical) : Prop where
  arity : c.node.inputs.length = if bias.isSome then 3 else 2
  data : c.Feeds 0 data
  weights : c.Feeds 1 weights
  bias : ∀ b ∈ bias, c.Feeds 2 b

end InferenceContext

namespace Infer

variable {c : InferenceContext} {data weights : Logical} {bias : Option Logical} {out : Layout}

/-- A bias has its values in groups of one for each output. -/
theorem dvd_of_checkBias {l : Layout} {sizes : List Nat} {n : Nat} (hs : l.shape.sizes? = some sizes)
    (h : checkBias (.known n) l = .ok ()) : n ∣ sizes.prod := by
  simp only [checkBias, Shape.dims_of_sizes? hs, List.getLast?_map] at h
  split at h
  · cases h
  · next hmerge =>
    cases hlast : sizes.getLast? with
    | none =>
      rw [hlast] at hmerge
      obtain rfl : n = 1 := by simpa [Dim.merge] using hmerge
      exact Nat.one_dvd _
    | some m =>
      rw [hlast] at hmerge
      obtain rfl : n = m := by simpa [Dim.merge] using hmerge
      exact List.dvd_prod (List.mem_of_getLast? hlast)

theorem sizes_of_fullyConnected (h : fullyConnected c = .ok out) (hfed : c.Fed data weights bias) :
    ∃ batch depth outputs, data.sizes = batch ++ [depth] ∧ weights.sizes = [outputs, depth] ∧
      out.shape = .ofSizes (batch ++ [outputs]) ∧ ∀ b ∈ bias, outputs ∣ b.values.size := by
  obtain ⟨ld, hld, hds, -⟩ := hfed.data
  obtain ⟨lw, hlw, hws, -⟩ := hfed.weights
  obtain ⟨rest, hlen, hrest, hbias⟩ : ∃ rest : List Layout,
      c.node.inputs.length = (ld :: lw :: rest).length ∧
        (rest = [] ∨ ∃ b, rest = [b] ∧ c.input 2 = .ok b) ∧
          ∀ b ∈ bias, ∃ l ∈ rest, l.shape.sizes? = some b.sizes ∧ b.values.size = b.sizes.prod := by
    have harity := hfed.arity
    cases hb : bias with
    | none =>
      rw [hb] at harity
      exact ⟨[], harity, .inl rfl, nofun⟩
    | some b =>
      rw [hb] at harity
      obtain ⟨l, hl, hs, hv⟩ := hfed.bias b hb
      refine ⟨[l], harity, .inr ⟨l, rfl, hl⟩, fun b' hb' => ?_⟩
      obtain rfl := Option.some.inj hb'
      exact ⟨l, List.mem_singleton_self l, hs, hv⟩
  have hyields : Yields none .fullyConnected (ld :: lw :: rest) out :=
    (fullyConnected_eq_ok hld hlw hlen hrest).1 h
  cases hyields with
  | @fullyConnected _ _ _ last first second hlast hdims hmerge hcheck =>
  rw [Shape.dims_of_sizes? hds, List.getLast?_map, Option.map_eq_some_iff] at hlast
  obtain ⟨depth, hlast, rfl⟩ := hlast
  obtain ⟨outputs, rfl, depth', rfl, hweights⟩ : ∃ outputs, first = .known outputs ∧
      ∃ depth', second = .known depth' ∧ weights.sizes = [outputs, depth'] := by
    rw [Shape.dims_of_sizes? hws] at hdims
    obtain ⟨outputs, tail, hweights, rfl, htail⟩ := List.map_eq_cons_iff.1 hdims
    obtain ⟨depth', tail', rfl, rfl, hnil⟩ := List.map_eq_cons_iff.1 htail
    obtain rfl := List.map_eq_nil_iff.1 hnil
    exact ⟨outputs, rfl, depth', rfl, hweights⟩
  obtain rfl : depth = depth' := by simpa [Dim.merge] using hmerge
  refine ⟨data.sizes.dropLast, depth, outputs, ?_, hweights, ?_, fun b hb => ?_⟩
  · exact (List.dropLast_append_getLast? depth hlast).symm
  · refine congrArg Shape.mk ?_
    rw [Shape.dims_of_sizes? hds, List.map_append, List.map_dropLast]
    rfl
  · obtain ⟨l, hl, hs, hv⟩ := hbias b hb
    rw [hv]
    exact dvd_of_checkBias hs (hcheck l hl)

/-- Where inference accepts the layouts of data `[.., depth]`, weights `[outputs, depth]` and perhaps
a bias, its answer has the shape `[.., outputs]`. Of values for these layouts, where a list has room
for its answer, the kernel answers all that this shape promises if and only if nothing is promised,
or the rows and the bias have values. Otherwise it answers an empty list for rows without values,
and faults for a bias without values. -/
theorem connects_iff (h : fullyConnected c = .ok out) (hfed : c.Fed data weights bias)
    (hroom : out.shape.volume ≤ Size.capacity 8) : ∃ batch depth outputs,
      data.sizes = batch ++ [depth] ∧ weights.sizes = [outputs, depth] ∧
      out.shape = .ofSizes (batch ++ [outputs]) ∧
      ((∃ ys, Kernel.fullyConnected data weights (bias.map (·.values.toList)) = .ok ys ∧
          Kernel.Connects data weights bias batch.prod outputs depth ys) ↔
        batch.prod * outputs = 0 ∨ 0 < depth ∧ ∀ b ∈ bias, 0 < b.values.size) ∧
      (0 < batch.prod * outputs →
        (depth = 0 → Kernel.fullyConnected data weights (bias.map (·.values.toList)) = .ok []) ∧
        (0 < depth → ∀ b ∈ bias, b.values.size = 0 →
          Kernel.fullyConnected data weights (bias.map (·.values.toList)) =
            Result.fault .outOfRange)) := by
  obtain ⟨batch, depth, outputs, hds, hws, hout, hdvd⟩ := sizes_of_fullyConnected h hfed
  obtain ⟨-, -, -, hdv⟩ := hfed.data
  obtain ⟨-, -, -, hwv⟩ := hfed.weights
  rw [hds, List.prod_append, List.prod_singleton] at hdv
  rw [hws, List.prod_cons, List.prod_singleton] at hwv
  rw [hout, Shape.volume_sizes (Shape.sizes?_ofSizes _), List.prod_append, List.prod_singleton]
    at hroom
  have hempty : depth = 0 ∨ batch.prod = 0 →
      Kernel.fullyConnected data weights (bias.map (·.values.toList)) = .ok [] :=
    fun h => Kernel.fullyConnected_of_empty hds hws hdv h _
  have hfault : 0 < batch.prod * outputs → 0 < depth → ∀ b ∈ bias, b.values.size = 0 →
      Kernel.fullyConnected data weights (bias.map (·.values.toList)) =
        Result.fault .outOfRange := by
    intro hpos hdepth b hb hzero
    have houtputs : b.values.size < outputs := hzero ▸ Nat.pos_of_mul_pos_left hpos
    rw [Kernel.fullyConnected_of_pos hds hws hdv hwv hdepth (Nat.pos_of_mul_pos_right hpos) hroom,
      Option.mem_def.1 hb, Option.map_some, Kernel.addends_fault houtputs]
    rfl
  refine ⟨batch, depth, outputs, hds, hws, hout, ⟨?_, fun hcond => ?_⟩,
    fun hpos => ⟨fun hdepth => hempty (.inl hdepth), hfault hpos⟩⟩
  · rintro ⟨ys, hys, hconnects⟩
    by_contra hnot
    rw [not_or, not_and] at hnot
    obtain hdepth | hdepth := Nat.eq_zero_or_pos depth
    · obtain rfl := Except.ok.inj ((hempty (.inl hdepth)).symm.trans hys)
      exact hnot.1 hconnects.length.symm
    · refine hnot.2 hdepth fun b hb => Nat.pos_of_ne_zero fun hzero => ?_
      cases (hfault (Nat.pos_of_ne_zero hnot.1) hdepth b hb hzero).symm.trans hys
  · obtain hnone | ⟨hdepth, hrows⟩ :
        (depth = 0 ∨ batch.prod = 0) ∨ 0 < depth ∧ 0 < batch.prod := by omega
    · have hzero : batch.prod * outputs = 0 := hcond.elim id fun h => by
        rw [hnone.resolve_left (Nat.ne_of_gt h.1), Nat.zero_mul]
      refine ⟨[], hempty hnone, hzero.symm, fun m n hm hn => ?_⟩
      exact absurd hzero (Nat.mul_ne_zero (Nat.ne_zero_of_lt hm) (Nat.ne_zero_of_lt hn))
    · refine Kernel.fullyConnected_connects hds hws hdv hwv hdepth hrows hroom fun b hb => ?_
      obtain hzero | ⟨-, hpos⟩ := hcond
      · rw [(Nat.mul_eq_zero.1 hzero).resolve_left (Nat.ne_of_gt hrows)]
        exact Nat.zero_le _
      · exact Nat.le_of_dvd (hpos b hb) (hdvd b hb)

/-- A fully connected node whose inputs have the given shapes. -/
def connectedSample (shapes : List (List Nat)) : InferenceContext where
  graph := shapes.foldl (fun g sizes =>
    let l := Layout.plain (.ofSizes sizes) .f32
    (g.place (toString g.nextId) (.input l) []).setLayout g.nextId l) .empty
  node := .fresh shapes.length "y" .fullyConnected (List.range shapes.length)
  values := []

/-- Two rows of data with two rows of weights and a bias. -/
theorem connects_iff_squareSample : ∃ ys : List Float,
    Kernel.fullyConnected ⟨#[1, 2, 3, 4], [2, 2]⟩ ⟨#[1, 0, 1, 1], [2, 2]⟩ (some [0.5, -1]) = .ok ys ∧
      Kernel.Connects ⟨#[1, 2, 3, 4], [2, 2]⟩ ⟨#[1, 0, 1, 1], [2, 2]⟩ (some ⟨#[0.5, -1], [2]⟩) 2 2 2
        ys := by
  have hfed : (connectedSample [[2, 2], [2, 2], [2]]).Fed ⟨#[1, 2, 3, 4], [2, 2]⟩
      ⟨#[1, 0, 1, 1], [2, 2]⟩ (some ⟨#[0.5, -1], [2]⟩) :=
    ⟨rfl, ⟨_, rfl, rfl, rfl⟩, ⟨_, rfl, rfl, rfl⟩, fun b hb =>
      Option.some.inj hb ▸ ⟨_, rfl, rfl, rfl⟩⟩
  obtain ⟨batch, depth, outputs, hds, hws, -, hiff, -⟩ :=
    connects_iff (c := connectedSample [[2, 2], [2, 2], [2]]) rfl hfed (by decide)
  obtain ⟨rfl, rfl⟩ : 2 = outputs ∧ 2 = depth := by simpa using hws
  obtain rfl : [2] = batch := List.append_cancel_right hds
  exact hiff.2 (.inr ⟨by decide, fun b hb => Option.some.inj hb ▸ by decide⟩)

/-- Rows without values: six sums are promised, and none is answered. A bias without values, which
has the right last dim: three sums are promised, and the kernel faults. -/
theorem unconnected_samples :
    (fullyConnected (connectedSample [[2, 0], [3, 0]]) = .ok (.plain (.ofSizes [2, 3]) .f32) ∧
      (connectedSample [[2, 0], [3, 0]]).Fed ⟨#[], [2, 0]⟩ ⟨#[], [3, 0]⟩ none ∧
      ¬ ∃ ys, Kernel.fullyConnected ⟨#[], [2, 0]⟩ ⟨#[], [3, 0]⟩ none = .ok ys ∧
        Kernel.Connects ⟨#[], [2, 0]⟩ ⟨#[], [3, 0]⟩ none 2 3 0 ys) ∧
    fullyConnected (connectedSample [[1, 1], [3, 1], [0, 3]]) = .ok (.plain (.ofSizes [1, 3]) .f32) ∧
      (connectedSample [[1, 1], [3, 1], [0, 3]]).Fed ⟨#[2], [1, 1]⟩ ⟨#[1, 1, 1], [3, 1]⟩
        (some ⟨#[], [0, 3]⟩) ∧
      ¬ ∃ ys, Kernel.fullyConnected ⟨#[2], [1, 1]⟩ ⟨#[1, 1, 1], [3, 1]⟩ (some []) = .ok ys := by
  refine ⟨⟨rfl, ⟨rfl, ⟨_, rfl, rfl, rfl⟩, ⟨_, rfl, rfl, rfl⟩, nofun⟩, ?_⟩, rfl,
    ⟨rfl, ⟨_, rfl, rfl, rfl⟩, ⟨_, rfl, rfl, rfl⟩, fun b hb =>
      Option.some.inj hb ▸ ⟨_, rfl, rfl, rfl⟩⟩, ?_⟩
  · rintro ⟨ys, hys, hconnects⟩
    obtain rfl : [] = ys := Except.ok.inj hys
    cases hconnects.length
  · rintro ⟨ys, hys⟩
    cases hys

end Infer
end BufferFusion
