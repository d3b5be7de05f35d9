import Mathlib.Logic.Relation
import BufferFusion.Proofs.Inference.Refine
import BufferFusion.Proofs.Layout.Counts
import BufferFusion.Proofs.Memory.Tabulate

/-!
# Fitting a shape to a format

A shape comes to the rank of a format one unit dim at a time. Each step leaves the other dims in
their order, and with them the number of elements and the row-major order of the values. A run that
puts unit dims in, read backwards, is one that takes them out.
-/
namespace BufferFusion

open Relation

namespace Index

open Addressing

variable {index index' sizes sizes' : List Nat}

/-- The coordinates on the axes that are not of size one. -/
def essential (index sizes : List Nat) : List Nat :=
  ((index.zip sizes).filter (·.2 ≠ 1)).map (·.1)

/-- As many elements, with the same positions: row-major order puts two indices in the same place if
and only if they differ in nothing but coordinates on axes of size one. -/
def SameOrder (sizes sizes' : List Nat) : Prop :=
  sizes'.prod = sizes.prod ∧ ∀ index index', List.Forall₂ (· < ·) index sizes →
    List.Forall₂ (· < ·) index' sizes' →
      (ravel index' sizes' = ravel index sizes ↔ essential index' sizes' = essential index sizes)

theorem prod_filter_ne_one (sizes : List Nat) : (sizes.filter (· ≠ 1)).prod = sizes.prod := by
  induction sizes with
  | nil => rfl
  | cons d sizes ih => by_cases hd : d = 1 <;> simp_all

theorem essential_cons (i d : Nat) (index sizes : List Nat) :
    essential (i :: index) (d :: sizes) =
      if d = 1 then essential index sizes else i :: essential index sizes := by
  by_cases hd : d = 1 <;> simp [essential, hd]

theorem essential_lt (h : List.Forall₂ (· < ·) index sizes) :
    List.Forall₂ (· < ·) (essential index sizes) (sizes.filter (· ≠ 1)) := by
  induction h with
  | nil => exact .nil
  | @cons i d index sizes hlt _ ih =>
    by_cases hd : d = 1
    · simpa [essential_cons, hd] using ih
    · rw [essential_cons, if_neg hd, List.filter_cons, if_pos (by simpa using hd)]
      exact .cons hlt ih

/-- Axes of size one have no part in a position. -/
theorem position_essential (h : List.Forall₂ (· < ·) index sizes) :
    position (essential index sizes) (sizes.filter (· ≠ 1)) = position index sizes := by
  induction h with
  | nil => rfl
  | @cons i d index sizes hlt _ ih =>
    have hprod := prod_filter_ne_one sizes
    by_cases hd : d = 1
    · obtain rfl : i = 0 := by omega
      simpa [essential_cons, hd, position] using ih
    · rw [essential_cons, if_neg hd, List.filter_cons, if_pos (by simpa using hd), position, position,
        hprod, ih]

/-- Sizes that are the same but for ones have the same order. -/
theorem sameOrder_of_filter (h : sizes'.filter (· ≠ 1) = sizes.filter (· ≠ 1)) :
    SameOrder sizes sizes' := by
  refine ⟨?_, fun index index' hi hi' => ?_⟩
  · rw [← prod_filter_ne_one sizes', h, prod_filter_ne_one]
  · have hlt := essential_lt hi
    have hlt' := essential_lt hi'
    rw [h] at hlt'
    rw [ravel_eq_position hi.length_eq, ravel_eq_position hi'.length_eq, ← position_essential hi,
      ← position_essential hi', h]
    exact ⟨position_injective hlt' hlt, congrArg (position · _)⟩

end Index

namespace Shape

variable {s t u : Shape} {format : Format} {target axis n : Nat} {r r' : Result Shape}

/-- The dims that are not known to be one. -/
def essentialDims (s : Shape) : List Dim := s.dims.filter (!·.isUnit)

/-- One unit dim more or less, toward a rank. -/
inductive FitStep (target : Nat) : Shape → Shape → Prop
  | insert {s : Shape} (below : s.rank < target) : FitStep target s (s.insert (min s.rank 2) (.known 1))
  | remove {s : Shape} (above : target < s.rank) (unit : s.dims[2]? = some (.known 1)) :
      FitStep target s (s.remove 2)

/-- Where the steps end: at the rank, or above it where the dim in turn is no unit. -/
inductive FitEnd (format : Format) (target : Nat) : Shape → Result Shape → Prop
  | fitted {s : Shape} (rank : s.rank = target) : FitEnd format target s (.ok s)
  | blocked {s : Shape} {d : Dim} (above : target < s.rank) (dim : s.dims[2]? = some d)
      (long : d ≠ .known 1) : FitEnd format target s (.error (.misfit (.cannotDrop d s format)))

theorem rank_insert {d : Dim} (h : axis ≤ s.rank) : (s.insert axis d).rank = s.rank + 1 :=
  List.length_insertIdx_of_le_length h d

theorem rank_remove (h : axis < s.rank) : (s.remove axis).rank = s.rank - 1 :=
  List.length_eraseIdx_of_lt h

/-! ### What a step changes -/

/-- How far the rank is from where it has to go. -/
def rankGap (target : Nat) (s : Shape) : Nat := (target - s.rank) + (s.rank - target)

theorem FitStep.rankGap_lt (h : FitStep target s t) : rankGap target t < rankGap target s := by
  cases h with
  | insert below =>
    have := @rank_insert s (min s.rank 2) (.known 1) (Nat.min_le_left ..)
    simp only [rankGap]
    omega
  | remove above unit =>
    have := rank_remove (List.getElem?_eq_some_iff.1 unit).1
    simp only [rankGap]
    omega

/-- No run goes on for ever. -/
theorem wellFounded_fitStep (target : Nat) : WellFounded fun t s => FitStep target s t :=
  Subrelation.wf (fun h => h.rankGap_lt) (InvImage.wf (rankGap target) wellFounded_lt)

theorem FitStep.unique (h : FitStep target s t) (h' : FitStep target s u) : t = u := by
  cases h with
  | insert below =>
    cases h' with
    | insert => rfl
    | remove above => omega
  | remove above =>
    cases h' with
    | insert below => omega
    | remove => rfl

theorem filter_insertIdx_unit (ds : List Dim) (axis : Nat) :
    (ds.insertIdx axis (.known 1)).filter (!·.isUnit) = ds.filter (!·.isUnit) := by
  induction ds generalizing axis with
  | nil => cases axis <;> rfl
  | cons d ds ih =>
    cases axis with
    | zero => rfl
    | succ axis => rw [List.insertIdx_succ_cons, List.filter_cons, List.filter_cons, ih]

theorem count_insertIdx_unit {n : Nat} (hn : n < Size.limit) (ds : List Dim) (axis : Nat) :
    Dim.count n (ds.insertIdx axis (.known 1)) = Dim.count n ds := by
  induction ds generalizing n axis with
  | nil =>
    cases axis with
    | zero => simp [Dim.count, Size.mul, Size.fit, hn, bind, Except.bind]
    | succ axis => rfl
  | cons d ds ih =>
    cases axis with
    | zero => rw [List.insertIdx_zero, Dim.count, Size.mul_eq_ok.2 ⟨rfl, by omega⟩, Nat.mul_one]; rfl
    | succ axis =>
      rw [List.insertIdx_succ_cons]
      cases d with
      | unknown => rfl
      | known k =>
        simp only [Dim.count]
        cases hm : Size.mul n k with
        | error e => rfl
        | ok m =>
          obtain ⟨rfl, hlt⟩ := Size.mul_eq_ok.1 hm
          exact ih hlt axis

theorem insert_remove {d : Dim} (h : s.dims[axis]? = some d) :
    (s.remove axis).insert axis d = s := by
  obtain ⟨hlt, rfl⟩ := List.getElem?_eq_some_iff.1 h
  exact congrArg Shape.mk (List.insertIdx_eraseIdx_getElem hlt)

theorem remove_insert {d : Dim} : (s.insert axis d).remove axis = s :=
  congrArg Shape.mk (List.eraseIdx_insertIdx_self ..)

/-- What a unit dim more does not change, no step changes. -/
theorem FitStep.invariant {β : Type} {φ : Shape → β}
    (hφ : ∀ s axis, φ (s.insert axis (.known 1)) = φ s) (h : FitStep target s t) : φ t = φ s := by
  cases h with
  | insert => exact hφ ..
  | remove _ unit => rw [← hφ (s.remove 2) 2, insert_remove unit]

theorem run_invariant {β : Type} {φ : Shape → β}
    (hφ : ∀ s axis, φ (s.insert axis (.known 1)) = φ s) (h : ReflTransGen (FitStep target) s t) :
    φ t = φ s := by
  induction h with
  | refl => rfl
  | tail _ hstep ih => rw [hstep.invariant hφ, ih]

/-! ### Runs -/

theorem widen_run (h : s.rank + n = target) : ReflTransGen (FitStep target) s (widen n s) := by
  induction n generalizing s with
  | zero => exact .refl
  | succ n ih =>
    have hrank := @rank_insert s (min s.rank 2) (.known 1) (Nat.min_le_left ..)
    exact .head (.insert (by omega)) (ih (by omega))

theorem narrow_run (hn : target + n = s.rank) (h : 2 ≤ target) :
    ∃ u, ReflTransGen (FitStep target) s u ∧ FitEnd format target u (narrow format n s) := by
  induction n generalizing s with
  | zero => exact ⟨s, .refl, .fitted hn.symm⟩
  | succ n ih =>
    have habove : target < s.rank := by omega
    have hlt : 2 < s.rank := by omega
    rw [narrow]
    split
    · next hunit =>
      have hrank := rank_remove hlt
      obtain ⟨u, hrun, hend⟩ := ih (s := s.remove 2) (by omega)
      exact ⟨u, .head (.remove habove hunit) hrun, hend⟩
    · next d hlong hd => exact ⟨s, .refl, .blocked habove hd hlong⟩
    · next hnone => exact absurd (List.getElem?_eq_none_iff.1 hnone) (Nat.not_le.2 hlt)

/-- Fitting runs to an end, and answers what is there. -/
theorem fit_run (s : Shape) (format : Format) :
    ∃ u, ReflTransGen (FitStep (fittedRank format s.rank)) s u ∧
      FitEnd format (fittedRank format s.rank) u (s.fit format) := by
  rw [fit]
  split
  · have hrank := rank_widen (fittedRank format s.rank - s.rank) s
    exact ⟨_, widen_run (by omega), .fitted (by omega)⟩
  · obtain heq | hlt : fittedRank format s.rank = s.rank ∨ 2 ≤ fittedRank format s.rank := by
      cases format <;> simp only [fittedRank, Format.maxRank] <;> omega
    · rw [heq, Nat.sub_self]
      exact ⟨s, .refl, .fitted rfl⟩
    · exact narrow_run (by omega) hlt

theorem FitEnd.final (h : FitEnd format target s r) : ¬ FitStep target s t := by
  rintro (below | ⟨above, unit⟩)
  · cases h <;> omega
  · cases h with
    | fitted => omega
    | blocked _ dim long => exact long (Option.some.inj (dim.symm.trans unit))

theorem FitEnd.unique (h : FitEnd format target s r) (h' : FitEnd format target s r') : r = r' := by
  cases h with
  | fitted =>
    cases h' with
    | fitted => rfl
    | blocked => omega
  | blocked _ dim =>
    cases h' with
    | fitted => omega
    | blocked _ dim' => rw [Option.some.inj (dim.symm.trans dim')]

/-- A run to an end is what fitting does. -/
theorem fit_of_run (h : ReflTransGen (FitStep (fittedRank format s.rank)) s u)
    (hu : FitEnd format (fittedRank format s.rank) u r) : s.fit format = r := by
  obtain ⟨u', hrun, hend⟩ := fit_run s format
  have hsame : u = u' := by
    obtain hrest | hrest := ReflTransGen.total_of_right_unique
        (r := FitStep (fittedRank format s.rank)) (fun _ _ _ => FitStep.unique) h hrun
    · obtain rfl | ⟨v, hstep, -⟩ := ReflTransGen.cases_head hrest
      · rfl
      · exact absurd hstep hu.final
    · obtain rfl | ⟨v, hstep, -⟩ := ReflTransGen.cases_head hrest
      · rfl
      · exact absurd hstep hend.final
  exact hend.unique (hsame ▸ hu)

theorem fit_eq_ok (h : s.fit format = .ok t) :
    ReflTransGen (FitStep (fittedRank format s.rank)) s t ∧ t.rank = fittedRank format s.rank := by
  obtain ⟨u, hrun, hend⟩ := fit_run s format
  rw [h] at hend
  obtain ⟨rank⟩ := hend
  exact ⟨hrun, rank⟩

/-- A run that puts dims in, read backwards, takes them out. -/
theorem run_backwards (hlow : 2 ≤ s.rank) (hs : s.rank ≤ target)
    (h : ReflTransGen (FitStep target) s t) :
    s.rank ≤ t.rank ∧ t.rank ≤ target ∧ ReflTransGen (FitStep s.rank) t s := by
  induction h with
  | refl => exact ⟨Nat.le_refl _, hs, .refl⟩
  | @tail u t _ hstep ih =>
    obtain ⟨hle, hle', hrun⟩ := ih
    cases hstep with
    | insert below =>
      have hmin : min u.rank 2 = 2 := by omega
      have hrank := @rank_insert u 2 (.known 1) (by omega)
      rw [hmin]
      have hunit : (u.insert 2 (.known 1)).dims[2]? = some (.known 1) := by
        have hle : 2 ≤ u.dims.length := Nat.le_trans hlow hle
        simp [insert, List.getElem?_insertIdx_self, hle]
      have hback : FitStep s.rank _ ((u.insert 2 (.known 1)).remove 2) :=
        .remove (by omega) hunit
      rw [remove_insert] at hback
      exact ⟨by omega, by omega, .head hback hrun⟩
    | remove above => omega

/-! ### Shapes that become known -/

theorem FitStep.refines {s' : Shape} (hs : s'.Refines s) (h : FitStep target s t) :
    ∃ t', FitStep target s' t' ∧ t'.Refines t := by
  have hrank : s'.rank = s.rank := hs.length_eq
  cases h with
  | insert below =>
    refine ⟨_, .insert (hrank ▸ below), ?_⟩
    rw [hrank]
    exact forall₂_insertIdx hs (.refl _) _
  | remove above unit =>
    obtain ⟨hlt, hdim⟩ := List.getElem?_eq_some_iff.1 unit
    have hlt' : 2 < s'.dims.length := hs.length_eq ▸ hlt
    have hunit : Dim.Refines s'.dims[2] s.dims[2] := hs.get hlt' hlt
    rw [hdim, Dim.refines_known] at hunit
    exact ⟨_, .remove (hrank ▸ above) (List.getElem?_eq_some_iff.2 ⟨hlt', hunit⟩),
      forall₂_eraseIdx hs 2⟩

theorem run_refines {s' : Shape} (hs : s'.Refines s) (h : ReflTransGen (FitStep target) s t) :
    ∃ t', ReflTransGen (FitStep target) s' t' ∧ t'.Refines t := by
  induction h with
  | refl => exact ⟨s', .refl, hs⟩
  | tail _ hstep ih =>
    obtain ⟨u', hrun, hu⟩ := ih
    obtain ⟨t', hstep', ht⟩ := hstep.refines hu
    exact ⟨t', hrun.tail hstep', ht⟩

theorem essentialDims_insert (s : Shape) (axis : Nat) :
    (s.insert axis (.known 1)).essentialDims = s.essentialDims :=
  filter_insertIdx_unit ..

theorem count_insert (s : Shape) (axis : Nat) : (s.insert axis (.known 1)).count = s.count :=
  count_insertIdx_unit (by decide) ..

theorem essentialDims_ofSizes (sizes : List Nat) :
    (ofSizes sizes).essentialDims = (sizes.filter (· ≠ 1)).map .known := by
  rw [essentialDims, ofSizes, List.filter_map]
  refine congrArg _ (List.filter_congr fun d _ => ?_)
  simp [Dim.isUnit, beq_eq_decide]

theorem isStatic_of_essentialDims (h : t.essentialDims = s.essentialDims) (hs : s.isStatic = true) :
    t.isStatic = true := by
  rw [isStatic, List.all_eq_true] at hs ⊢
  intro d hd
  by_cases hunit : d.isUnit = true
  · rw [eq_of_beq hunit]
    rfl
  · have hmem : d ∈ s.essentialDims := h ▸ List.mem_filter.2 ⟨hd, by simpa using hunit⟩
    exact hs d (List.mem_filter.1 hmem).1

/-- A shape that fits still does when its dims are known, and the values keep their order. -/
theorem fit_realized (h : s.fit format = .ok t) {sizes : List Nat} (hs : (ofSizes sizes).Refines s) :
    ∃ sizes', (ofSizes sizes).fit format = .ok (ofSizes sizes') ∧ (ofSizes sizes').Refines t ∧
      Index.SameOrder sizes sizes' := by
  obtain ⟨hrun, hrank⟩ := fit_eq_ok h
  obtain ⟨t', hrun', ht⟩ := run_refines hs hrun
  have hsame : (ofSizes sizes).rank = s.rank := hs.length_eq
  have hrank' : t'.rank = fittedRank format s.rank := ht.length_eq.trans hrank
  have hessential := run_invariant essentialDims_insert hrun'
  have hstatic := isStatic_of_essentialDims hessential ((isStatic_iff_sizes? _).2 (by simp))
  obtain ⟨sizes', hsizes⟩ := Option.isSome_iff_exists.1 ((isStatic_iff_sizes? _).1 hstatic)
  obtain rfl : t' = ofSizes sizes' := congrArg Shape.mk (dims_of_sizes? hsizes)
  rw [← hsame] at hrun' hrank'
  refine ⟨sizes', fit_of_run hrun' (.fitted hrank'), ht, Index.sameOrder_of_filter ?_⟩
  rw [essentialDims_ofSizes, essentialDims_ofSizes] at hessential
  exact List.map_injective_iff.2 (fun _ _ => Dim.known.inj) hessential

/-- A shape that fits a plain format comes back from a higher rank. -/
theorem fit_back {plain : Format} (h : s.fit format = .ok t) (hplain : plain.isBlocked = false)
    (hholds : plain.holdsRank s.rank = true) (hs : 4 ≤ s.rank) (ht : s.rank ≤ t.rank) :
    t.fit plain = .ok s := by
  obtain ⟨hrun, hrank⟩ := fit_eq_ok h
  have htarget : s.rank = fittedRank plain t.rank := by
    cases plain <;> simp_all [Format.holdsRank, Format.maxRank, Format.isBlocked, Format.block?,
      fittedRank]
    omega
  obtain ⟨-, -, hback⟩ := run_backwards (by omega) (hrank ▸ ht) hrun
  rw [htarget] at hback
  exact fit_of_run hback (.fitted htarget)

/-- Fitting a shape to a format puts unit dims in or takes them out, one by one, and no run of such
steps is endless. It answers where the rank is reached, or it stops at a dim that is no unit. What it
answers has the other dims of the shape in their order and as many elements as far as that is known;
so do the sizes that the shape turns out to have, and their values stay in their row-major order. A
shape of rank four or more goes back to the plain format that it came from. -/
theorem fit_unitDims (s : Shape) (format : Format) :
    (∀ target, WellFounded fun u t => FitStep target t u) ∧
      (∃ u, ReflTransGen (FitStep (fittedRank format s.rank)) s u ∧
        FitEnd format (fittedRank format s.rank) u (s.fit format)) ∧
      ∀ t, s.fit format = .ok t →
        t.essentialDims = s.essentialDims ∧ t.count = s.count ∧
        (∀ sizes, (ofSizes sizes).Refines s → ∃ sizes', (ofSizes sizes).fit format =
          .ok (ofSizes sizes') ∧ (ofSizes sizes').Refines t ∧ Index.SameOrder sizes sizes') ∧
        ∀ plain : Format, plain.isBlocked = false → plain.holdsRank s.rank = true → 4 ≤ s.rank →
          s.rank ≤ t.rank → t.fit plain = .ok s := by
  refine ⟨wellFounded_fitStep, fit_run s format, fun t h => ?_⟩
  have hrun := (fit_eq_ok h).1
  exact ⟨run_invariant essentialDims_insert hrun, run_invariant count_insert hrun,
    fun sizes => fit_realized h, fun plain => fit_back h⟩

/-- Of four dims one is unknown and one is a unit; with two unit dims more they come back. -/
theorem fit_unitDims_openSample :
    (⟨[.known 2, .unknown, .known 1, .known 3]⟩ : Shape).fit .bfwzyx =
        .ok ⟨[.known 2, .unknown, .known 1, .known 1, .known 1, .known 3]⟩ ∧
      (⟨[.known 2, .unknown, .known 1, .known 1, .known 1, .known 3]⟩ : Shape).fit .bfyx =
        .ok ⟨[.known 2, .unknown, .known 1, .known 3]⟩ ∧
      ∃ sizes', (ofSizes [2, 5, 1, 3]).fit .bfwzyx = .ok (ofSizes sizes') ∧
        Index.SameOrder [2, 5, 1, 3] sizes' := by
  obtain ⟨-, -, h⟩ := fit_unitDims ⟨[.known 2, .unknown, .known 1, .known 3]⟩ .bfwzyx
  obtain ⟨-, -, hsizes, hback⟩ := h _ rfl
  have hrefines : (ofSizes [2, 5, 1, 3]).Refines ⟨[.known 2, .unknown, .known 1, .known 3]⟩ :=
    .cons (.refl _) (.cons (Dim.refines_unknown _) (.cons (.refl _) (.cons (.refl _) .nil)))
  obtain ⟨sizes', hfit, -, horder⟩ := hsizes [2, 5, 1, 3] hrefines
  exact ⟨rfl, hback .bfyx rfl rfl (by decide) (by decide), sizes', hfit, horder⟩

end Shape
end BufferFusion
