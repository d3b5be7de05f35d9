import BufferFusion.Fusion.View
import BufferFusion.Fusion.Window
import BufferFusion.Proofs.Inference.Refine
import BufferFusion.Proofs.Layout.Addressing

/-!
# Windows and orders on concrete shapes

What the rules for crops and permutes compute from dims, and what becomes of it once more dims are
known: a window's padding is exact, its offset cannot be negative, and an order that moves nothing
still moves nothing.
-/
namespace BufferFusion.Fuse

/-- The padding around a window of `size` elements from `offset` on, on an axis with padding `a`. -/
def window (a : AxisPadding) (offset size : Nat) : Dim → AxisPadding
  | .unknown => .pending
  | .known n => .fixed (a.lower + offset) (a.upper + (n - (offset + size)))

variable {dims : List Dim} {axes out : List AxisPadding} {offsets sizes : List Nat}

theorem windowAxis_eq_ok {a b : AxisPadding} {o s : Nat} {d : Dim}
    (h : windowAxis a (some o) (some s) d = .ok b) : b = window a o s d := by
  cases d with
  | unknown => exact (Except.ok.inj h).symm
  | known n =>
    simp only [windowAxis, Result.entry, Result.bind_eq_ok, Except.ok.injEq, exists_eq_left'] at h
    obtain ⟨lower, hl, stop, hs, upper, hu, h⟩ := h
    obtain rfl := Except.ok.inj h
    obtain ⟨rfl, -⟩ := Size.add_eq_ok.1 hl
    obtain ⟨rfl, -⟩ := Size.add_eq_ok.1 hs
    obtain ⟨rfl, -⟩ := Size.add_eq_ok.1 hu
    rfl

theorem windowAxis_onlyOverflow (a : AxisPadding) (o s : Nat) (d : Dim) :
    (windowAxis a (some o) (some s) d).OnlyOverflow := by
  cases d with
  | unknown => exact Result.onlyOverflow_ok _
  | known n =>
    refine (Result.onlyOverflow_ok o).bind fun _ _ => (Size.add_onlyOverflow _ _).bind fun _ _ => ?_
    refine (Result.onlyOverflow_ok s).bind fun _ _ => (Size.add_onlyOverflow _ _).bind fun _ _ => ?_
    exact (Size.add_onlyOverflow _ _).bind fun _ _ => Result.onlyOverflow_pure _

/-- The padding of a window, axis by axis. -/
theorem windowPadding_eq_ok (ha : axes.length = dims.length) (ho : offsets.length = dims.length)
    (hs : sizes.length = dims.length) (h : windowPadding dims axes offsets sizes = .ok out) :
    out.length = dims.length ∧ ∀ (i : Nat) d a o s, dims[i]? = some d → axes[i]? = some a →
      offsets[i]? = some o → sizes[i]? = some s → out[i]? = some (window a o s d) := by
  induction dims generalizing axes offsets sizes out with
  | nil =>
    obtain rfl := Except.ok.inj h
    simp [List.eq_nil_of_length_eq_zero ha]
  | cons d dims ih =>
    obtain _ | ⟨a, axes⟩ := axes
    · cases ha
    obtain _ | ⟨o, offsets⟩ := offsets
    · cases ho
    obtain _ | ⟨s, sizes⟩ := sizes
    · cases hs
    obtain ⟨b, hb, h⟩ := Result.bind_eq_ok.1 h
    obtain ⟨rest, hrest, h⟩ := Result.bind_eq_ok.1 h
    obtain rfl := Except.ok.inj h
    obtain rfl := windowAxis_eq_ok hb
    obtain ⟨hlen, hall⟩ := ih (Nat.succ.inj ha) (Nat.succ.inj ho) (Nat.succ.inj hs) hrest
    refine ⟨by simp [hlen], fun i d' a' o' s' hd ha' ho' hs' => ?_⟩
    cases i with
    | zero =>
      obtain rfl := Option.some.inj hd
      obtain rfl := Option.some.inj ha'
      obtain rfl := Option.some.inj ho'
      obtain rfl := Option.some.inj hs'
      rfl
    | succ i => exact hall i d' a' o' s' hd ha' ho' hs'

theorem windowPadding_onlyOverflow (ha : axes.length = dims.length)
    (ho : offsets.length = dims.length) (hs : sizes.length = dims.length) :
    (windowPadding dims axes offsets sizes).OnlyOverflow := by
  induction dims generalizing axes offsets sizes with
  | nil => exact Result.onlyOverflow_ok _
  | cons d dims ih =>
    obtain _ | ⟨a, axes⟩ := axes
    · cases ha
    obtain _ | ⟨o, offsets⟩ := offsets
    · cases ho
    obtain _ | ⟨s, sizes⟩ := sizes
    · cases hs
    refine (windowAxis_onlyOverflow a o s d).bind fun _ _ => ?_
    refine (ih (Nat.succ.inj ha) (Nat.succ.inj ho) (Nat.succ.inj hs)).bind fun _ _ => ?_
    exact Result.onlyOverflow_pure _

/-- Padding around a window is settled exactly where all the dims are known. -/
theorem hasDynamic_windowPadding (ha : axes.length = dims.length)
    (ho : offsets.length = dims.length) (hs : sizes.length = dims.length)
    (h : windowPadding dims axes offsets sizes = .ok out) :
    (Padding.mk out).hasDynamic = false ↔ Dim.unknown ∉ dims := by
  obtain ⟨hlen, hall⟩ := windowPadding_eq_ok ha ho hs h
  have hget : ∀ i (hi : i < dims.length), ∃ a o s, out[i]? = some (window a o s dims[i]) :=
    fun i hi => ⟨_, _, _, hall i _ _ _ _ (List.getElem?_eq_getElem hi)
      (List.getElem?_eq_getElem (by omega)) (List.getElem?_eq_getElem (by omega))
      (List.getElem?_eq_getElem (by omega))⟩
  simp only [Padding.hasDynamic, List.any_eq_false, Bool.not_eq_true]
  constructor
  · intro hno hmem
    obtain ⟨i, hi, hd⟩ := List.mem_iff_getElem.1 hmem
    obtain ⟨a, o, s, hw⟩ := hget i hi
    have := hno _ (List.mem_of_getElem? hw)
    rw [hd] at this
    cases this
  · intro hno b hb
    obtain ⟨i, hi, rfl⟩ := List.mem_iff_getElem.1 hb
    have hi' : i < dims.length := hlen ▸ hi
    obtain ⟨a, o, s, hw⟩ := hget i hi'
    rw [List.getElem?_eq_getElem hi] at hw
    rw [Option.some.inj hw]
    cases hd : dims[i] with
    | known n => rfl
    | unknown => exact absurd (List.mem_iff_getElem.2 ⟨i, hi', hd⟩) hno

/-- What lies before a window on the blocked axis. -/
theorem lower_windowPadding (ha : axes.length = dims.length) (ho : offsets.length = dims.length)
    (hs : sizes.length = dims.length) (h : windowPadding dims axes offsets sizes = .ok out)
    (hk : Dim.unknown ∉ dims) (hr : 1 < dims.length) : ∃ a o, axes[1]? = some a ∧
      offsets[1]? = some o ∧ (Padding.mk out).lower[1]?.getD 0 = a.lower + o := by
  have hout := (windowPadding_eq_ok ha ho hs h).2 1 _ _ _ _ (List.getElem?_eq_getElem hr)
    (List.getElem?_eq_getElem (ha ▸ hr)) (List.getElem?_eq_getElem (ho ▸ hr))
    (List.getElem?_eq_getElem (hs ▸ hr))
  refine ⟨_, _, List.getElem?_eq_getElem (ha ▸ hr), List.getElem?_eq_getElem (ho ▸ hr), ?_⟩
  cases hd : dims[1] with
  | unknown => exact absurd (List.mem_iff_getElem.2 ⟨1, hr, hd⟩) hk
  | known n =>
    rw [hd] at hout
    simp [Padding.lower, hout, window, AxisPadding.fixed]

/-- The offset of a window is found unless something overflows: a window begins behind the first
element. -/
theorem windowOffset_onlyOverflow {input : Layout} (hs : input.isStatic = true)
    (hd : input.padding.hasDynamic = false) (ha : input.isAllocatable = true)
    (ho : offsets.length = input.rank) : (windowOffset input offsets).OnlyOverflow := by
  simp only [Layout.isAllocatable, Bool.and_eq_true] at ha
  obtain ⟨hv, ha⟩ := ha
  have hanswer : ∀ {x : Result Nat}, x.OnlyOverflow → x.answer?.OnlyOverflow := by
    intro x hx
    cases x with
    | ok n => exact Result.onlyOverflow_ok _
    | error e =>
      obtain rfl := hx e rfl
      intro e' he
      exact (Except.error.inj he).symm
  have hof : ∀ {x : Result Nat} {n : Nat}, x.answer? = .ok (some n) → x = .ok n := by
    intro x n hx
    cases x with
    | ok m =>
      obtain rfl := Option.some.inj (Except.ok.inj hx)
      rfl
    | error e => cases e <;> cases hx
  refine (hanswer (Layout.offset_onlyOverflow hs hd hv ho)).bind fun start hstart => ?_
  refine (hanswer (Layout.offset_onlyOverflow hs hd hv (by simp))).bind fun base hbase => ?_
  split
  swap
  · exact Result.onlyOverflow_pure _
  next s b =>
  obtain ⟨a, ha₁, rfl⟩ := Layout.offset_eq_ok (hof hstart)
  obtain ⟨a', ha₂, rfl⟩ := Layout.offset_eq_ok (hof hbase)
  obtain rfl := Except.ok.inj (ha₁.symm.trans ha₂)
  obtain ⟨sizes, stored, k⟩ := Layout.addressing_eq_ok hv ha₁
  have hlower := k.length_lower hv
  suffices hle : Addressing.cell a.block 0 (a.coords (List.replicate input.rank 0)) a.strides ≤
      Addressing.cell a.block 0 (a.coords offsets) a.strides by
    rw [Size.sub, if_pos hle]
    exact Result.onlyOverflow_ok _
  have hget : ∀ (i c : Nat), (a.coords (List.replicate input.rank 0))[i]? = some c →
      a.lower[i]? = some c := by
    intro i c hc
    obtain ⟨x, l, hx, hl, rfl⟩ := List.getElem?_zipWith_eq_some.1 hc
    obtain ⟨-, rfl⟩ := List.mem_replicate.1 (List.mem_of_getElem? hx)
    simpa using hl
  refine Addressing.cell_le ?_ fun i c hc size hb => ?_
  · refine List.forall₂_iff_get.2 ⟨by simp [Addressing.coords, hlower, ho], fun i h₁ h₂ => ?_⟩
    simp [Addressing.coords]
  · rw [Nat.zero_add, k.block] at hb
    have hdyn : input.padding.isDynamic i = false := by
      rw [Padding.isDynamic]
      rw [Padding.hasDynamic, List.any_eq_false] at hd
      cases hi : input.padding.axes[i]? with
      | none => rfl
      | some x => simpa using hd x (List.mem_of_getElem? hi)
    rw [hb] at ha
    simpa [hdyn, ← k.lower, hget i c hc] using ha

/-- An order that keeps the elements where they are keeps them there once more dims are known. -/
theorem orderObstacle_refines {dims' : List Dim} (hr : List.Forall₂ Dim.Refines dims' dims)
    {order : List Nat} {previous previous' : Option Nat} {unknown unknown' : Bool}
    (hp : ∀ p', previous' = some p' → ∃ p, previous = some p ∧ p' ≤ p)
    (h : orderObstacle? dims previous unknown order = .ok none) :
    orderObstacle? dims' previous' unknown' order = .ok none := by
  induction order generalizing previous previous' unknown unknown' with
  | nil => rfl
  | cons axis order ih =>
    obtain ⟨d, hd, h⟩ := Result.bind_eq_ok.1 h
    rw [Result.entry_eq_ok] at hd
    obtain ⟨hlt, rfl⟩ := List.getElem?_eq_some_iff.1 hd
    have hlt' : axis < dims'.length := hr.length_eq ▸ hlt
    have hdd : Dim.Refines dims'[axis] dims[axis] := hr.get hlt' hlt
    refine Result.bind_eq_ok.2 ⟨_, Result.entry_eq_ok.2 (List.getElem?_eq_getElem hlt'), ?_⟩
    split at h
    · next hunit =>
      have : dims'[axis].isUnit = true := by
        simp only [Dim.isUnit, beq_iff_eq] at hunit ⊢
        rw [hunit] at hdd
        exact Dim.refines_known.1 hdd
      rw [if_pos this]
      exact ih hp h
    · split at h
      · cases Except.ok.inj h
      next hle =>
      have hbelow : ∀ p, previous = some p → p ≤ axis := by
        rintro p rfl
        simpa using hle
      split
      · refine ih (fun p' hp' => ⟨axis, rfl, ?_⟩) h
        obtain ⟨p, hpp, hple⟩ := hp p' hp'
        exact hple.trans (hbelow p hpp)
      · rw [if_neg]
        · exact ih (fun p' hp' => ⟨axis, rfl, (Option.some.inj hp').ge⟩) h
        · cases hp' : previous' with
          | none => simp
          | some p' =>
            obtain ⟨p, hpp, hple⟩ := hp p' hp'
            simpa using hple.trans (hbelow p hpp)

end BufferFusion.Fuse
