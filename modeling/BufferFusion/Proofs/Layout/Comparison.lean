import BufferFusion.Layout.Comparison
import BufferFusion.Proofs.Inference.Resolve

/-!
# What compatibility means

Two layouts are compatible where they can turn out to be the same: sizes for the open dims of both
make one layout of them. They compare as compatible outright where nothing is open.
-/
namespace BufferFusion

namespace Compatibility

theorem isCompatible_and (a b : Compatibility) :
    (a.and b).isCompatible = (a.isCompatible && b.isCompatible) := by
  cases a <;> cases b <;> rfl

theorem and_eq_compatible {a b : Compatibility} :
    a.and b = compatible ↔ a = compatible ∧ b = compatible := by
  cases a <;> cases b <;> simp [Compatibility.and]

end Compatibility

namespace Dim

variable {a b : Dim} {n : Nat}

/-- A size for both dims, if they have one in common: what either knows, or zero. -/
def common : Dim → Dim → Nat
  | known n, _ => n
  | unknown, known n => n
  | unknown, unknown => 0

theorem common_eq (a b : Dim) : a.common b = 0 ∨ known (a.common b) = a ∨ known (a.common b) = b := by
  cases a <;> cases b <;> simp [common]

theorem refines_common (h : (a.compare b).isCompatible = true) :
    (known (a.common b)).Refines a ∧ (known (a.common b)).Refines b := by
  cases a with
  | unknown =>
    cases b with
    | unknown => exact ⟨refines_unknown _, refines_unknown _⟩
    | known m => exact ⟨refines_unknown _, .refl _⟩
  | known n =>
    cases b with
    | unknown => exact ⟨.refl _, refines_unknown _⟩
    | known m =>
      obtain rfl : n = m := by
        by_contra hne
        simp [compare, hne, Compatibility.isCompatible] at h
      exact ⟨.refl _, .refl _⟩

theorem isCompatible_of_refines (ha : (known n).Refines a) (hb : (known n).Refines b) :
    (a.compare b).isCompatible = true := by
  cases a with
  | unknown => cases b <;> rfl
  | known i =>
    cases b with
    | unknown => rfl
    | known j =>
      obtain rfl := known.inj (refines_known.1 ha)
      obtain rfl := known.inj (refines_known.1 hb)
      simp [compare, Compatibility.isCompatible]

theorem compare_eq_compatible : a.compare b = .compatible ↔ a = b ∧ a.isKnown = true := by
  cases a <;> cases b <;> simp [compare, isKnown]

end Dim

namespace Layout

variable {a b l l' : Layout} {as bs ds : List Dim} {sizes : List Nat}

theorem compareDims_comm (as bs : List Dim) : compareDims as bs = compareDims bs as := by
  induction as generalizing bs with
  | nil => cases bs <;> rfl
  | cons a as ih =>
    cases bs with
    | nil => rfl
    | cons b bs => simp only [compareDims, ih bs, Dim.compare_comm a b]

theorem refines_commons (hlen : as.length = bs.length)
    (h : (compareDims as bs).isCompatible = true) :
    List.Forall₂ Dim.Refines ((List.zipWith Dim.common as bs).map .known) as ∧
      List.Forall₂ Dim.Refines ((List.zipWith Dim.common as bs).map .known) bs := by
  induction as generalizing bs with
  | nil =>
    obtain rfl := List.eq_nil_of_length_eq_zero hlen.symm
    exact ⟨.nil, .nil⟩
  | cons a as ih =>
    obtain _ | ⟨b, bs⟩ := bs
    · cases hlen
    rw [compareDims, Compatibility.isCompatible_and, Bool.and_eq_true] at h
    obtain ⟨ha, hb⟩ := Dim.refines_common h.1
    obtain ⟨has, hbs⟩ := ih (Nat.succ.inj hlen) h.2
    exact ⟨.cons ha has, .cons hb hbs⟩

theorem isCompatible_of_refines (ha : List.Forall₂ Dim.Refines (sizes.map .known) as)
    (hb : List.Forall₂ Dim.Refines (sizes.map .known) bs) :
    (compareDims as bs).isCompatible = true := by
  induction sizes generalizing as bs with
  | nil =>
    cases ha
    rfl
  | cons n sizes ih =>
    obtain _ | ⟨ha, has⟩ := ha
    obtain _ | ⟨hb, hbs⟩ := hb
    rw [compareDims, Compatibility.isCompatible_and, Dim.isCompatible_of_refines ha hb, ih has hbs]
    rfl

theorem compareDims_eq_compatible (hlen : as.length = bs.length) :
    compareDims as bs = .compatible ↔ as = bs ∧ as.all Dim.isKnown = true := by
  induction as generalizing bs with
  | nil =>
    obtain rfl := List.eq_nil_of_length_eq_zero hlen.symm
    simp [compareDims]
  | cons a as ih =>
    obtain _ | ⟨b, bs⟩ := bs
    · cases hlen
    rw [compareDims, Compatibility.and_eq_compatible, Dim.compare_eq_compatible,
      ih (Nat.succ.inj hlen), List.all_cons, Bool.and_eq_true, List.cons.injEq]
    tauto

/-- Of concrete sizes that a shape can have, none clashes. -/
theorem firstClash_of_refines {axis : Nat} (h : List.Forall₂ Dim.Refines (sizes.map .known) ds) :
    firstClash axis ds sizes = none := by
  induction sizes generalizing axis ds with
  | nil =>
    cases h
    rfl
  | cons n sizes ih =>
    obtain _ | ⟨hd, hds⟩ := h
    obtain rfl | rfl := hd
    · exact ih hds
    · rw [firstClash, if_pos rfl, ih hds]

/-- A layout takes the sizes that its shape can have, and changes in nothing else. -/
theorem realize_eq_ok_iff :
    l.realize sizes = .ok l' ↔
      (Shape.ofSizes sizes).Refines l.shape ∧ l' = { l with shape := .ofSizes sizes } := by
  constructor
  · intro h
    obtain ⟨rfl, hrefines⟩ := realize_eq_ok h
    exact ⟨hrefines.shape, rfl⟩
  · rintro ⟨hrefines, rfl⟩
    have hlen : sizes.length = l.rank := by
      have := hrefines.length_eq
      rwa [Shape.ofSizes, List.length_map] at this
    rw [realize, if_neg (not_not_intro hlen), firstClash_of_refines hrefines]

/-- All but the dims of two layouts is the same. -/
def SameKind (a b : Layout) : Prop :=
  a.rank = b.rank ∧ a.element = b.element ∧ a.format = b.format ∧ a.padding = b.padding

theorem isCompatible_iff : a.isCompatible b = true ↔
    SameKind a b ∧ (compareDims a.shape.dims b.shape.dims).isCompatible = true := by
  rw [isCompatible, compare]
  split
  · next h =>
    rw [Compatibility.isCompatible_and, Bool.and_eq_true]
    refine ⟨fun hc => ⟨h, hc.2⟩, fun hc => ⟨?_, hc.2⟩⟩
    split <;> rfl
  · next h => exact ⟨nofun, fun hc => absurd hc.1 h⟩

theorem compare_eq_compatible :
    a.compare b = .compatible ↔ a = b ∧ a.isStatic = true ∧ a.padding.hasDynamic = false := by
  rw [compare]
  split
  · next h =>
    obtain ⟨hr, he, hf, hp⟩ := h
    rw [Compatibility.and_eq_compatible, compareDims_eq_compatible hr]
    have hequal : a.shape.dims = b.shape.dims ↔ a = b := by
      obtain ⟨⟨as⟩, _, _, _⟩ := a
      obtain ⟨⟨bs⟩, _, _, _⟩ := b
      simp_all
    rw [hequal, show a.shape.dims.all Dim.isKnown = a.isStatic from rfl]
    cases a.padding.hasDynamic <;> simp
  · next h =>
    refine ⟨nofun, ?_⟩
    rintro ⟨rfl, -⟩
    exact absurd ⟨rfl, rfl, rfl, rfl⟩ h

theorem SameKind.symm (h : SameKind a b) : SameKind b a :=
  ⟨h.1.symm, h.2.1.symm, h.2.2.1.symm, h.2.2.2.symm⟩

theorem compare_comm (a b : Layout) : a.compare b = b.compare a := by
  rw [compare, compare, compareDims_comm]
  by_cases h : SameKind a b
  · have hsymm := h.symm
    unfold SameKind at h hsymm
    rw [if_pos h, if_pos hsymm, h.2.2.2]
  · have hsymm := mt SameKind.symm h
    unfold SameKind at h hsymm
    rw [if_neg h, if_neg hsymm]

/-- Sizes for both layouts, known to one of them or zero. -/
theorem exists_realize (h : a.isCompatible b = true) :
    ∃ sizes l, a.realize sizes = .ok l ∧ b.realize sizes = .ok l ∧
      ∀ n ∈ sizes, n = 0 ∨ .known n ∈ a.shape.dims ∨ .known n ∈ b.shape.dims := by
  obtain ⟨⟨hr, he, hf, hp⟩, hdims⟩ := isCompatible_iff.1 h
  obtain ⟨has, hbs⟩ := refines_commons hr hdims
  refine ⟨List.zipWith Dim.common a.shape.dims b.shape.dims, _, realize_eq_ok_iff.2 ⟨has, rfl⟩,
    realize_eq_ok_iff.2 ⟨hbs, by rw [he, hf, hp]⟩, fun n hn => ?_⟩
  obtain ⟨i, hi, rfl⟩ := List.mem_iff_getElem.1 hn
  rw [List.length_zipWith, Nat.lt_min] at hi
  rw [List.getElem_zipWith]
  refine (Dim.common_eq _ _).imp_right (Or.imp (fun ha => ?_) fun hb => ?_)
  · rw [ha]
    exact List.getElem_mem hi.1
  · rw [hb]
    exact List.getElem_mem hi.2

theorem isCompatible_of_realize (ha : a.realize sizes = .ok l) (hb : b.realize sizes = .ok l) :
    a.isCompatible b = true := by
  obtain ⟨has, rfl⟩ := realize_eq_ok_iff.1 ha
  obtain ⟨hbs, hl⟩ := realize_eq_ok_iff.1 hb
  have hrank : a.rank = b.rank := has.length_eq.symm.trans hbs.length_eq
  obtain ⟨-, he, hf, hp⟩ := Layout.mk.inj hl
  exact isCompatible_iff.2 ⟨⟨hrank, he, hf, hp⟩, isCompatible_of_refines has hbs⟩

/-- Layouts are compatible if and only if concrete sizes make the same layout of both; then all sizes
that both can take do so, and there are such sizes among the dims that are known, besides zero. They
compare as compatible if and only if they are equal, with all dims and all padding known. In which
order they are compared makes no difference. -/
theorem compare_realize (a b : Layout) :
    (a.isCompatible b = true ↔
      ∃ sizes l, a.realize sizes = .ok l ∧ b.realize sizes = .ok l) ∧
    (a.isCompatible b = true →
      (∃ sizes l, a.realize sizes = .ok l ∧ b.realize sizes = .ok l ∧
        ∀ n ∈ sizes, n = 0 ∨ .known n ∈ a.shape.dims ∨ .known n ∈ b.shape.dims) ∧
      ∀ sizes l l', a.realize sizes = .ok l → b.realize sizes = .ok l' → l = l') ∧
    (a.compare b = .compatible ↔
      a = b ∧ a.isStatic = true ∧ a.padding.hasDynamic = false) ∧
    a.compare b = b.compare a ∧ a.isCompatible b = b.isCompatible a := by
  refine ⟨⟨fun h => ?_, fun ⟨sizes, l, ha, hb⟩ => isCompatible_of_realize ha hb⟩,
    fun h => ⟨exists_realize h, fun sizes l l' ha hb => ?_⟩, compare_eq_compatible,
    compare_comm a b, congrArg Compatibility.isCompatible (compare_comm a b)⟩
  · obtain ⟨sizes, l, ha, hb, -⟩ := exists_realize h
    exact ⟨sizes, l, ha, hb⟩
  · obtain ⟨-, he, hf, hp⟩ := (isCompatible_iff.1 h).1
    rw [(realize_eq_ok_iff.1 ha).2, (realize_eq_ok_iff.1 hb).2, he, hf, hp]

/-- Rows of four, of which it is open how many there are. -/
def rowsSample : Layout := .plain ⟨[.unknown, .known 4]⟩ .f32

/-- Three rows, of which it is open how long they are. -/
def columnsSample : Layout := .plain ⟨[.known 3, .unknown]⟩ .f32

/-- Both turn out to be three rows of four, if they turn out to be the same. -/
theorem compare_realize_rowsSample :
    rowsSample.isCompatible columnsSample = true ∧
      ∀ sizes l l', rowsSample.realize sizes = .ok l → columnsSample.realize sizes = .ok l' →
        l = l' :=
  ⟨rfl, ((compare_realize rowsSample columnsSample).2.1 rfl).2⟩

end Layout
end BufferFusion
