import BufferFusion.Proofs.Inference.Refine
import BufferFusion.Proofs.Layout.Addressing

/-!
# Smaller buffers

A layout whose dims, padding included, are no larger than those of another one takes no more
elements, and its size does not overflow where the other's does not.
-/
namespace BufferFusion

theorem Size.product_mono {ms ns : List Nat} {n : Nat} (h : List.Forall₂ (· ≤ ·) ms ns)
    (hn : product ns = .ok n) : ∃ m, product ms = .ok m ∧ m ≤ n := by
  suffices ∀ a b, a ≤ b → ns.foldlM mul b = .ok n → ∃ m, ms.foldlM mul a = .ok m ∧ m ≤ n from
    this 1 1 (Nat.le_refl 1) hn
  clear hn
  induction h with
  | nil =>
    intro a b hab hb
    obtain rfl := Except.ok.inj hb
    exact ⟨a, rfl, hab⟩
  | @cons m k ms ns hle _ ih =>
    intro a b hab hb
    rw [List.foldlM_cons] at hb
    obtain ⟨c, hc, hb⟩ := Result.bind_eq_ok.1 hb
    obtain ⟨rfl, hlt⟩ := mul_eq_ok.1 hc
    have hprod : a * m ≤ b * k := Nat.mul_le_mul hab hle
    obtain ⟨m', hm', hle'⟩ := ih _ _ hprod hb
    rw [List.foldlM_cons]
    exact ⟨m', Result.bind_eq_ok.2 ⟨_, mul_eq_ok.2 ⟨rfl, Nat.lt_of_le_of_lt hprod hlt⟩, hm'⟩, hle'⟩

namespace Layout

variable {l l' : Layout} {sizes sizes' stored : List Nat} {n : Nat}

/-- Padding makes no axis shorter. -/
theorem le_paddedSizes {axes : List AxisPadding} (h : sizes.length ≤ axes.length) :
    List.Forall₂ (· ≤ ·) sizes (paddedSizes sizes axes) := by
  rw [List.forall₂_iff_get, paddedSizes]
  refine ⟨by simp [h], fun i hi hi' => ?_⟩
  rw [List.get_eq_getElem, List.get_eq_getElem, List.getElem_zipWith]
  omega

theorem roundBlocks_mono {axis size : Nat} {ms ns out : List Nat} (h : List.Forall₂ (· ≤ ·) ms ns)
    (hout : roundBlocks axis size ns = .ok out) :
    ∃ out', roundBlocks axis size ms = .ok out' ∧ List.Forall₂ (· ≤ ·) out' out := by
  rw [roundBlocks] at hout ⊢
  by_cases haxis : axis < ns.length
  · have haxis' : axis < ms.length := h.length_eq ▸ haxis
    rw [List.getElem?_eq_getElem haxis] at hout
    rw [List.getElem?_eq_getElem haxis']
    obtain ⟨k, hk, hout⟩ := Result.bind_eq_ok.1 hout
    obtain rfl := Except.ok.inj hout
    obtain ⟨rfl, hlt⟩ := Size.mul_eq_ok.1 hk
    have hle : ms[axis] ≤ ns[axis] := h.get haxis' haxis
    have hround : (ms[axis] + size - 1) / size * size ≤ (ns[axis] + size - 1) / size * size :=
      Nat.mul_le_mul_right _ (Nat.div_le_div_right (by omega))
    refine ⟨_, Result.bind_eq_ok.2 ⟨_, Size.mul_eq_ok.2 ⟨rfl, Nat.lt_of_le_of_lt hround hlt⟩, rfl⟩, ?_⟩
    exact forall₂_set h hround axis
  · rw [List.getElem?_eq_none (Nat.not_lt.1 haxis)] at hout
    rw [List.getElem?_eq_none (h.length_eq ▸ Nat.not_lt.1 haxis)]
    obtain rfl := Except.ok.inj hout
    exact ⟨ms, rfl, h⟩

/-- A layout with no larger dims takes no more elements. -/
theorem footprint_mono (hformat : l'.format = l.format) (hs : l.shape.sizes? = some sizes)
    (hs' : l'.shape.sizes? = some sizes') (hv' : l'.isValid = true)
    (hd' : l'.padding.hasDynamic = false)
    (hle : List.Forall₂ (· ≤ ·) (paddedSizes sizes' l'.padding.axes) (paddedSizes sizes l.padding.axes))
    (h : l.footprint = .ok n) : ∃ n', l'.footprint = .ok n' ∧ n' ≤ n := by
  obtain ⟨stored, hstored, hn⟩ := Result.bind_eq_ok.1 h
  simp only [storedDims, hs] at hstored
  split at hstored
  · cases hstored
  obtain ⟨padded, hpadded, hstored⟩ := Result.bind_eq_ok.1 hstored
  have hlt := lt_of_surround hpadded
  obtain ⟨-, rfl⟩ := surround_eq_ok hpadded
  have hlen : sizes'.length ≤ l'.padding.axes.length := by
    rw [length_sizes hs', (isValid_iff.1 hv').2]
    exact Nat.le_refl l'.rank
  have hpadded' := surround_of_lt hlen fun k hk => by
    obtain ⟨i, hi, rfl⟩ := List.mem_iff_getElem.1 hk
    exact Nat.lt_of_le_of_lt (hle.get hi (hle.length_eq ▸ hi)) (hlt _ (List.getElem_mem _))
  obtain ⟨stored', hstored', hle'⟩ : ∃ stored', l'.storedDims = .ok stored' ∧
      List.Forall₂ (· ≤ ·) stored' stored := by
    simp only [storedDims, hs', hd', Bool.false_eq_true, if_false, hpadded', hformat]
    split at hstored
    · exact roundBlocks_mono hle hstored
    · obtain rfl := Except.ok.inj hstored
      exact ⟨_, rfl, hle⟩
  obtain ⟨n', hn', hle''⟩ := Size.product_mono hle' hn
  exact ⟨n', Result.bind_eq_ok.2 ⟨stored', hstored', hn'⟩, hle''⟩

end Layout
end BufferFusion
