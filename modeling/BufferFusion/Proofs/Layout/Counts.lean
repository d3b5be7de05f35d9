import Mathlib.Data.List.Perm.Basic
import Mathlib.Data.List.Perm.Subperm
import BufferFusion.Fusion.View
import BufferFusion.Inference.Rules
import BufferFusion.Proofs.Inference.Refine

/-!
# Counts

How many elements a shape has. Where all dims are known the count is their product, which neither
reshaping nor permuting changes, and layouts are compared as rows by it.
-/
namespace BufferFusion

namespace Dim

theorem count_onlyOverflow (n : Nat) (ds : List Dim) : (count n ds).OnlyOverflow := by
  induction ds generalizing n with
  | nil => exact Result.onlyOverflow_ok _
  | cons d ds ih =>
    cases d with
    | unknown => exact Result.onlyOverflow_ok _
    | known m => exact (Size.mul_onlyOverflow _ _).bind fun k _ => ih k

theorem count_eq_some {n m : Nat} {ds : List Dim} (h : count n ds = .ok (some m)) :
    ∃ ns : List Nat, ds = ns.map known ∧ n * ns.prod = m := by
  obtain ⟨ns, hns, hm⟩ := known_of_count h
  exact ⟨ns, hns, Size.prod_of_foldlM_mul hm⟩

theorem count_known (n : Nat) (ns : List Nat) :
    count n (ns.map known) = some <$> ns.foldlM Size.mul n := by
  induction ns generalizing n with
  | nil => rfl
  | cons m ns ih =>
    rw [List.map_cons, count, List.foldlM_cons, map_bind]
    exact congrArg _ (funext fun p => ih p)

theorem unknown_mem_of_count {n : Nat} {ds : List Dim} (h : count n ds = .ok none) :
    unknown ∈ ds := by
  induction ds generalizing n with
  | nil => cases Except.ok.inj h
  | cons d ds ih =>
    cases d with
    | unknown => exact List.mem_cons_self
    | known m =>
      obtain ⟨k, -, h⟩ := Result.bind_eq_ok.1 h
      exact List.mem_cons_of_mem _ (ih h)

theorem getElem?_map_known {ns : List Nat} {i n : Nat} :
    (ns.map known)[i]? = some (known n) ↔ ns[i]? = some n := by
  rw [List.getElem?_map, Option.map_eq_some_iff]
  constructor
  · rintro ⟨m, hm, he⟩
    rw [hm, Dim.known.inj he]
  · exact fun h => ⟨n, h, rfl⟩

theorem getElem?_map_known_congr {ns ms : List Nat} {i : Nat}
    (h : (ns.map known)[i]? = (ms.map known)[i]?) : ns[i]? = ms[i]? := by
  rw [List.getElem?_map, List.getElem?_map] at h
  exact Option.map_injective (fun _ _ => Dim.known.inj) h

end Dim

namespace Shape

variable {s : Shape}

theorem isStatic_iff_unknown : s.isStatic = true ↔ Dim.unknown ∉ s.dims := by
  simp only [isStatic, List.all_eq_true]
  constructor
  · intro h hm
    cases h _ hm
  · intro h d hd
    cases d with
    | known n => rfl
    | unknown => exact absurd hd h

theorem exists_sizes (h : s.isStatic = true) : ∃ sizes : List Nat, s.dims = sizes.map .known := by
  obtain ⟨dims⟩ := s
  rw [isStatic_iff_unknown] at h
  induction dims with
  | nil => exact ⟨[], rfl⟩
  | cons d ds ih =>
    cases d with
    | unknown => exact absurd List.mem_cons_self h
    | known n =>
      obtain ⟨sizes, hs⟩ := ih fun hm => h (List.mem_cons_of_mem _ hm)
      exact ⟨n :: sizes, by simpa using hs⟩

theorem dims_of_sizes? {sizes : List Nat} (h : s.sizes? = some sizes) :
    s.dims = sizes.map .known := by
  obtain ⟨ns, hns⟩ := exists_sizes ((isStatic_iff_sizes? s).2 (Option.isSome_iff_exists.2 ⟨_, h⟩))
  obtain rfl : s = ofSizes ns := by
    cases s
    exact congrArg Shape.mk hns
  rw [sizes?_ofSizes] at h
  rw [← Option.some.inj h]
  rfl

/-- The exact number of elements of a shape with known dims. -/
def volume (s : Shape) : Nat := (s.dims.map fun d => d.value?.getD 1).prod

theorem volume_of_rank_eq_zero (h : s.rank = 0) : s.volume = 1 := by
  rw [volume, List.eq_nil_of_length_eq_zero h, List.map_nil, List.prod_nil]

theorem volume_known {ns : List Nat} (h : s.dims = ns.map .known) : s.volume = ns.prod := by
  rw [volume, h, List.map_map]
  congr 1
  exact (List.map_congr_left fun n _ => rfl).trans (List.map_id ns)

theorem count_eq_some {n : Nat} (h : s.count = .ok (some n)) :
    s.isStatic = true ∧ s.volume = n := by
  obtain ⟨ns, hns, hn⟩ := Dim.count_eq_some h
  refine ⟨?_, by rw [volume_known hns, ← hn, Nat.one_mul]⟩
  simp [isStatic, hns, Dim.isKnown]

theorem count_of_isStatic (hs : s.isStatic = true) {c : Option Nat} (h : s.count = .ok c) :
    c = some s.volume := by
  cases c with
  | none => exact absurd (Dim.unknown_mem_of_count h) (isStatic_iff_unknown.1 hs)
  | some n => rw [(count_eq_some h).2]

/-- Of all refinements of a shape with known dims there is one. -/
theorem Refines.eq_of_isStatic {s' : Shape} (h : s'.Refines s) (hs : s.isStatic = true) :
    s' = s := by
  obtain ⟨sizes, hsz⟩ := exists_sizes hs
  obtain ⟨ds⟩ := s'
  obtain ⟨es⟩ := s
  simp only at hsz
  subst hsz
  exact congrArg Shape.mk (Dim.eq_of_refines_known h)

theorem volume_perm {t : Shape} (h : t.dims.Perm s.dims) : t.volume = s.volume :=
  (h.map _).prod_nat

/-- The shape that a pattern makes of known dims has as many elements, once it is known. -/
theorem volume_reshape {pattern : List Int} {copyZeros : Bool} {s' : Shape}
    (hs : s.isStatic = true) (h : s.reshape pattern copyZeros = .ok s')
    (hs' : s'.isStatic = true) : s'.volume = s.volume := by
  obtain ⟨dims, found, hd, hcases⟩ := reshape_cases h
  obtain ⟨axis, n, p, rfl, hn, hp, -, hdvd, rfl⟩ | ⟨n, rfl, hn, hp, rfl⟩ | ⟨hnone, rfl⟩ := hcases
  · obtain ⟨ns, hns, hprod⟩ := Dim.count_eq_some hp
    have hlt : axis < dims.length := by
      obtain ⟨-, hf | ⟨i, hf, hi⟩⟩ := patternDims_spec hd
      · cases hf
      · obtain rfl : axis = i := by simpa using Option.some.inj hf
        exact (List.getElem?_eq_some_iff.1 hi).1
    have hperm : (dims.set axis (.known (n / p))).Perm (.known (n / p) :: dims.eraseIdx axis) :=
      List.set_perm_cons_eraseIdx hlt _
    rw [hns] at hperm
    rw [volume_perm (s := ⟨(n / p :: ns).map .known⟩) hperm, volume_known rfl, List.prod_cons,
      (count_eq_some hn).2, ← Nat.one_mul ns.prod, hprod]
    exact Nat.div_mul_cancel (Nat.dvd_of_mod_eq_zero hdvd)
  · rw [(count_eq_some hn).2, (count_eq_some (s := ⟨dims⟩) hp).2]
  · exfalso
    rcases hnone with hnone | hnone
    · exact isStatic_iff_unknown.1 hs (Dim.unknown_mem_of_count hnone)
    · refine isStatic_iff_unknown.1 hs' ?_
      have := Dim.unknown_mem_of_count hnone
      cases found with
      | none => exact this
      | some axis => exact List.mem_of_mem_eraseIdx this

/-! ### Fitting a shape to a format -/

variable {out : Shape} {format : Format} {n : Nat}

theorem volume_insert_unit {axis : Nat} (h : axis ≤ s.rank) :
    (s.insert axis (.known 1)).volume = s.volume := by
  have hperm : (s.insert axis (.known 1)).dims.Perm (.known 1 :: s.dims) :=
    List.perm_insertIdx _ _ h
  exact (volume_perm (s := ⟨.known 1 :: s.dims⟩) hperm).trans (by simp [volume])

theorem volume_remove_unit {axis : Nat} (h : s.dims[axis]? = some (.known 1)) :
    (s.remove axis).volume = s.volume := by
  obtain ⟨hlt, hunit⟩ := List.getElem?_eq_some_iff.1 h
  have hperm : (Dim.known 1 :: (s.remove axis).dims).Perm s.dims :=
    hunit ▸ List.getElem_cons_eraseIdx_perm hlt
  rw [← volume_perm hperm (t := ⟨.known 1 :: (s.remove axis).dims⟩)]
  simp [volume]

theorem volume_widen (n : Nat) (s : Shape) : (widen n s).volume = s.volume := by
  induction n generalizing s with
  | zero => rfl
  | succ n ih => rw [widen, ih, volume_insert_unit (Nat.min_le_left ..)]

theorem volume_narrow (h : narrow format n s = .ok out) : out.volume = s.volume := by
  induction n generalizing s with
  | zero => rw [Except.ok.inj h]
  | succ n ih =>
    rw [narrow] at h
    split at h
    · next hunit => rw [ih h, volume_remove_unit hunit]
    · cases h
    · cases h

/-- Fitting a shape to a format moves unit dims only. -/
theorem volume_fit (h : s.fit format = .ok out) : out.volume = s.volume := by
  rw [fit] at h
  split at h
  · rw [← Except.ok.inj h, volume_widen]
  · exact volume_narrow h

theorem volume_sizes {sizes : List Nat} (h : s.sizes? = some sizes) : s.volume = sizes.prod :=
  volume_known (dims_of_sizes? h)

end Shape

theorem Infer.perm_range_of_isPermutation {order : List Nat} (h : isPermutation order = true) :
    order.Nodup ∧ order.Perm (List.range order.length) := by
  simp only [isPermutation, Bool.and_eq_true, List.all_eq_true, decide_eq_true_eq] at h
  refine ⟨h.2, (List.subperm_of_subset h.2 fun x hx => ?_).perm_of_length_le (by simp)⟩
  rw [List.mem_range]
  exact h.1 x hx

/-- Taking the dims of a list in another order. -/
theorem Infer.perm_of_isPermutation {order : List Nat} {dims : List Dim}
    (h : isPermutation order = true) (hlen : order.length = dims.length) :
    (order.map fun axis => dims.getD axis .unknown).Perm dims := by
  obtain ⟨-, hrange⟩ := perm_range_of_isPermutation h
  rw [hlen] at hrange
  refine (hrange.map _).trans (List.Perm.of_eq (List.ext_getElem (by simp) fun i h₁ h₂ => ?_))
  simp [List.getD_eq_getElem?_getD, h₂]

namespace Fuse

variable {input output : Layout}

theorem count_of_flat {l f : Layout} (h : l.flat = .ok f) : ∃ c, l.shape.count = .ok c ∧
    f = .unpadded ⟨[c.elim .unknown .known]⟩ l.element
      (if l.format.isBlocked then l.format else .bfyx) := by
  obtain ⟨c, hc, h⟩ := Result.bind_eq_ok.1 h
  refine ⟨c, hc, ?_⟩
  obtain rfl := Except.ok.inj h
  cases c <;> rfl

theorem compareFlat_onlyOverflow (input output : Layout) :
    (compareFlat input output).OnlyOverflow := by
  have hflat : ∀ l : Layout, l.flat.OnlyOverflow := fun l =>
    (Dim.count_onlyOverflow _ _).bind fun _ _ => Result.onlyOverflow_pure _
  exact (hflat _).bind fun _ _ => (hflat _).bind fun _ _ => Result.onlyOverflow_pure _

/-- Layouts that nothing keeps from being viewed as each other are compared by their counts. -/
theorem compareFlat_eq_ok {compared : Compatibility} (ho : viewObstacle? input output = none)
    (h : compareFlat input output = .ok compared) : ∃ c c', input.shape.count = .ok c ∧
      output.shape.count = .ok c' ∧
      compared = Dim.compare (c.elim .unknown .known) (c'.elim .unknown .known) := by
  obtain ⟨a, ha, h⟩ := Result.bind_eq_ok.1 h
  obtain ⟨b, hb, h⟩ := Result.bind_eq_ok.1 h
  obtain ⟨c, hc, rfl⟩ := count_of_flat ha
  obtain ⟨c', hc', rfl⟩ := count_of_flat hb
  obtain rfl := Except.ok.inj h
  refine ⟨c, c', hc, hc', ?_⟩
  simp only [viewObstacle?] at ho
  split at ho
  · cases ho
  split at ho
  · cases ho
  next hblocked =>
  split at ho
  · cases ho
  next helem =>
  simp only [Bool.or_eq_true, not_or, Bool.not_eq_true] at hblocked
  simp only [Layout.compare, Layout.unpadded, Layout.rank, Shape.rank, Layout.compareDims,
    hblocked.1, hblocked.2, not_not.1 helem, List.length_singleton, Padding.hasDynamic_zero]
  cases Dim.compare (c.elim .unknown .known) (c'.elim .unknown .known) <;> rfl

end Fuse
end BufferFusion
