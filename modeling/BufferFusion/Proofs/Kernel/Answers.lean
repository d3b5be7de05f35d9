import BufferFusion.Proofs.Execution.Shown

/-!
# Kernels that answer

A kernel that is given as many values as its inputs have elements answers one value for each element
of its output. No index that it looks at is outside of its inputs, so only sizes can be in its way.
-/
namespace BufferFusion

open Addressing Result

variable {α : Type} {count start : Nat} {done : List α} {f : Nat → Result α} {P : α → Prop}

theorem tabulateFrom_answers (h : ∀ n, n < count → (f (start + n)).Answers P) :
    (tabulateFrom f count start done).Answers fun xs => ∃ ys, xs = done.reverse ++ ys ∧
      ys.length = count ∧ ∀ y ∈ ys, P y := by
  induction count generalizing start done with
  | zero => exact answers_ok ⟨[], by simp, rfl, by simp⟩
  | succ count ih =>
    have hfirst := h 0 (Nat.succ_pos count)
    rw [Nat.add_zero] at hfirst
    rw [tabulateFrom]
    obtain ⟨a, ha, hp⟩ | he | he := hfirst
    · simp only [ha]
      refine (@ih (start + 1) (a :: done) fun n hn => ?_).mono fun xs _ hxs => ?_
      · rw [Nat.add_assoc, Nat.add_comm 1 n]
        exact h (n + 1) (Nat.succ_lt_succ hn)
      · obtain ⟨ys, rfl, rfl, hys⟩ := hxs
        exact ⟨a :: ys, by simp, rfl, List.forall_mem_cons.2 ⟨hp, hys⟩⟩
    · exact .inr (.inl (by rw [he]))
    · exact .inr (.inr (by rw [he]))

/-- A table is as long as it was asked to be. -/
theorem tabulate_answers (h : ∀ n, n < count → (f n).Answers P) :
    (tabulate count f).Answers fun xs => xs.length = count ∧ ∀ x ∈ xs, P x := by
  refine (@tabulateFrom_answers α count 0 [] f P fun n hn => ?_).mono fun xs _ hxs => ?_
  · rw [Nat.zero_add]
    exact h n hn
  · obtain ⟨ys, rfl, hlen, hys⟩ := hxs
    exact ⟨hlen, hys⟩

/-! ### Memories with room -/

namespace Memory

variable {m : Memory} {l : Layout} {xs : List Float} {n : Nat} (hv : l.isValid = true)
  (hs : l.isStatic = true) (hd : l.padding.hasDynamic = false) (hf : l.footprint = .ok n)
  (hroom : n ≤ m.size)

include hv hs hd hf hroom

/-- A memory with room for a layout is read through it. -/
theorem read_answers : (m.read l).Answers fun xs => xs.length = l.shape.volume := by
  obtain ⟨sizes, hsizes⟩ := Option.isSome_iff_exists.1 ((Shape.isStatic_iff_sizes? _).1 hs)
  rw [read, Layout.sizes_eq_ok.2 hsizes]
  refine (Layout.addressing_onlyOverflow hs hd hv).answers.bind fun a ha _ => ?_
  refine (Size.product_onlyOverflow sizes).answers.bind fun count hcount _ => ?_
  refine (Size.reserve_answers 8 count).bind fun _ _ _ => ?_
  have hprod := Size.prod_of_product hcount
  rw [Shape.volume_sizes hsizes, hprod]
  refine (@tabulate_answers _ _ _ (fun _ => True) fun i hi => ?_).mono fun xs _ h => h.1
  obtain ⟨ho, hlt⟩ := Layout.offset_eq_cellOf hv hf hsizes (Index.unravel_lt (hprod ▸ hi))
  obtain ⟨a', ha', ho⟩ := bind_eq_ok.1 ho
  obtain rfl := Except.ok.inj (ha.symm.trans ha')
  rw [ho]
  have hcell : l.cellOf sizes (Index.unravel sizes i) < m.cells.size := Nat.lt_of_lt_of_le hlt hroom
  exact .inl ⟨_, fetch_eq_ok.2 (Array.getElem?_eq_getElem hcell), trivial⟩

/-- A memory with room for a layout is written through it, with a value for each element. -/
theorem write_answers (hx : xs.length = l.shape.volume) :
    (m.write l xs).2.Answers fun _ => True := by
  obtain ⟨sizes, hsizes⟩ := Option.isSome_iff_exists.1 ((Shape.isStatic_iff_sizes? _).1 hs)
  rw [Shape.volume_sizes hsizes] at hx
  cases hcount : Size.product sizes with
  | error e =>
    obtain rfl := Size.product_onlyOverflow sizes e hcount
    exact .inr (.inl (by simp [write, Layout.sizes_eq_ok.2 hsizes, hcount, bind, Except.bind]))
  | ok count =>
    obtain rfl : count = xs.length := (hx.trans (Size.prod_of_product hcount)).symm
    cases ha : l.addressing with
    | error e =>
      obtain rfl := Layout.addressing_onlyOverflow hs hd hv e ha
      exact .inr (.inl (by simp [write, Layout.sizes_eq_ok.2 hsizes, hcount, ha, bind, Except.bind]))
    | ok a =>
      obtain ⟨m', hm'⟩ := write_ok hv hf hroom ha hsizes hcount
      rw [hm']
      exact answers_ok trivial

end Memory
/-- A value list has its entry at every index of its box. -/
theorem Logical.fetch_answers {xs : List Float} {dims index : List Nat} (hx : xs.length = dims.prod)
    (hi : List.Forall₂ (· < ·) index dims) :
    (Logical.fetch ⟨xs.toArray, dims⟩ index).Answers fun _ => True := by
  have hlt : position index dims < xs.length := hx ▸ position_lt hi
  exact .inl ⟨_, (Logical.fetch_eq_ok hi.length_eq).2 (List.getElem?_eq_getElem hlt), trivial⟩

namespace Kernel

variable {xs : List Float} {dims sizes order offsets index : List Nat} {axis coord : Nat}

/-- A table that is built has an entry for each index. -/
theorem build_answers {f : List Nat → Result α} {Q : α → Prop}
    (h : ∀ index, List.Forall₂ (· < ·) index sizes → (f index).Answers Q) :
    (build sizes f).Answers fun zs => Size.product sizes = .ok zs.length ∧ ∀ z ∈ zs, Q z := by
  refine (Size.product_onlyOverflow sizes).answers.bind fun count hcount _ => ?_
  refine (Size.reserve_answers 8 count).bind fun _ _ _ => ?_
  have hprod := Size.prod_of_product hcount
  refine (tabulate_answers fun n hn =>
    h _ (Index.unravel_lt (hprod ▸ hn))).mono fun zs _ hzs => ?_
  obtain ⟨rfl, hall⟩ := hzs
  exact ⟨hcount, hall⟩

/-- The input index of a permute is inside the input. -/
theorem scatter_lt (hp : Infer.isPermutation order = true) (hlen : order.length = dims.length)
    (hsizes : List.Forall₂ (fun axis n => dims[axis]? = some n) order sizes)
    (hi : List.Forall₂ (· < ·) index sizes) :
    List.Forall₂ (· < ·) (scatter dims.length order index) dims := by
  obtain ⟨hnodup, hperm⟩ := Infer.perm_range_of_isPermutation hp
  rw [hlen] at hperm
  have hindex : order.length = index.length := hsizes.length_eq.trans hi.length_eq.symm
  refine List.forall₂_of_length_eq_of_get (length_scatter ..) fun a ha ha' => ?_
  -- the axis is somewhere in the order, and the coordinate comes from there
  obtain ⟨j, hj, hja⟩ := List.mem_iff_getElem.1 (hperm.mem_iff.2 (List.mem_range.2 ha'))
  have hget := @getElem?_scatter _ _ dims.length hnodup (lt_of_isPermutation hp hlen) hindex
    j a (List.getElem?_eq_some_iff.2 ⟨hj, hja⟩)
  have hj₁ : j < index.length := hindex ▸ hj
  have hj₂ : j < sizes.length := hsizes.length_eq ▸ hj
  have hsize : dims[order[j]]? = some sizes[j] := hsizes.get hj hj₂
  have hlt : index[j] < sizes[j] := hi.get hj₁ hj₂
  rw [hja, List.getElem?_eq_getElem ha'] at hsize
  rw [List.getElem?_eq_getElem ha, List.getElem?_eq_getElem hj₁] at hget
  rw [List.get_eq_getElem, List.get_eq_getElem, Option.some.inj hget, Option.some.inj hsize]
  exact hlt

theorem permute_answers (hx : xs.length = dims.prod) (hp : Infer.isPermutation order = true)
    (hlen : order.length = dims.length)
    (hsizes : List.Forall₂ (fun axis n => dims[axis]? = some n) order sizes) :
    (permute ⟨xs.toArray, dims⟩ order).Answers fun ys => Size.product sizes = .ok ys.length := by
  have hfound : (order.mapM fun axis => Result.entry dims[axis]?) = .ok sizes :=
    mapM_eq_ok.2 (hsizes.imp fun _ _ h => entry_eq_ok.2 h)
  rw [permute, hfound]
  exact (@build_answers _ _ _ (fun _ => True) fun index hi =>
    Logical.fetch_answers hx (scatter_lt hp hlen hsizes hi)).mono fun ys _ h => h.1

theorem shift_answers (index offsets : List Nat) (hlen : index.length = offsets.length) :
    (shift index offsets).Answers fun moved => moved = List.zipWith (· + ·) index offsets := by
  suffices (shift index offsets).OnlyOverflow from
    this.answers.mono fun moved h _ => shift_eq_ok hlen h
  clear hlen
  induction index generalizing offsets with
  | nil => exact onlyOverflow_ok _
  | cons i index ih =>
    obtain _ | ⟨o, offsets⟩ := offsets
    · exact onlyOverflow_ok _
    · exact (Size.add_onlyOverflow i o).bind fun _ _ => (ih offsets).bind fun _ _ =>
        onlyOverflow_pure _

theorem crop_answers (hx : xs.length = dims.prod) (ho : offsets.length = sizes.length)
    (hfits : ∀ index, List.Forall₂ (· < ·) index sizes →
      List.Forall₂ (· < ·) (List.zipWith (· + ·) index offsets) dims) :
    (crop ⟨xs.toArray, dims⟩ offsets sizes).Answers fun ys =>
      Size.product sizes = .ok ys.length := by
  refine (@build_answers _ _ _ (fun _ => True) fun index hi => ?_).mono fun ys _ h => h.1
  refine (shift_answers index offsets (hi.length_eq.trans ho.symm)).bind fun moved _ hmoved => ?_
  exact Logical.fetch_answers hx (hmoved ▸ hfits index hi)

/-- A part of a concatenation: its values, and its dims, which are those of the whole but for the
axis. -/
def IsPart (axis : Nat) (sizes : List Nat) (part : Logical) (extent : Nat) : Prop :=
  ∃ (xs : List Float) (dims : List Nat), part = ⟨xs.toArray, dims⟩ ∧ xs.length = dims.prod ∧
    dims.length = sizes.length ∧ dims[axis]? = some extent ∧ ∀ j, j ≠ axis → dims[j]? = sizes[j]?

theorem isPart_set {e : Nat} (haxis : axis < sizes.length) (hx : xs.length = (sizes.set axis e).prod) :
    IsPart axis sizes ⟨xs.toArray, sizes.set axis e⟩ e :=
  ⟨xs, _, rfl, hx, List.length_set .., List.getElem?_set_self haxis,
    fun _ hj => List.getElem?_set_ne (Ne.symm hj)⟩

theorem forall₂_entry {parts : List Logical} {es : List Nat}
    (hparts : List.Forall₂ (IsPart axis sizes) parts es) :
    List.Forall₂ (fun (p : Logical) e => p.sizes[axis]? = some e) parts es :=
  hparts.imp fun _ _ ⟨_, _, hp, _, _, he, _⟩ => hp ▸ he

/-- Every coordinate falls into a part, at an index of it. -/
theorem fetchPart_ok {parts : List Logical} {es : List Nat}
    (hparts : List.Forall₂ (IsPart axis sizes) parts es) (hsum : sizes[axis]? = some es.sum)
    (hi : List.Forall₂ (· < ·) index sizes) :
    ∃ x, (do fetchPart axis index (← Result.entry index[axis]?) parts) = .ok (some x) := by
  have haxis : axis < index.length := hi.length_eq ▸ (List.getElem?_eq_some_iff.1 hsum).1
  have hc := List.getElem?_eq_getElem haxis
  obtain ⟨i, e, he, hlo, hhi⟩ := exists_slot (forall₂_getElem? hi hc hsum)
  have hlt : i < parts.length := hparts.length_eq ▸ (List.getElem?_eq_some_iff.1 he).1
  obtain ⟨hlt', rfl⟩ := List.getElem?_eq_some_iff.1 he
  obtain ⟨xs, dims, hp, hx, hlen, hentry, hoff⟩ : IsPart axis sizes parts[i] es[i] :=
    hparts.get hlt hlt'
  have hbelow := (@slice_index _ _ _ _ _ _ _ 0 hi hlen hoff hentry hc hlo hhi).1
  have hposition : position (index.set axis (index[axis] - (es.take i).sum)) dims < xs.length :=
    hx ▸ position_lt hbelow
  have hpart := @fetchPart_eq index _ _ _ _ _ _ _ (forall₂_entry hparts)
    (List.getElem?_eq_getElem hlt) he hlo hhi
  rw [hp, (Logical.fetch_eq_ok hbelow.length_eq).2 (List.getElem?_eq_getElem hposition)] at hpart
  exact ⟨_, Result.bind_eq_ok.2 ⟨_, entry_eq_ok.2 hc, hpart⟩⟩

theorem concatenate_answers {parts : List Logical} {es : List Nat}
    (hparts : List.Forall₂ (IsPart axis sizes) parts es) (hsum : sizes[axis]? = some es.sum) :
    (concatenate parts axis sizes).Answers fun ys => Size.product sizes = .ok ys.length := by
  refine (@build_answers _ _ _ (fun z : Option Float => z.isSome = true) fun index hi => ?_).bind
    fun zs _ hzs => ?_
  · obtain ⟨x, hx⟩ := fetchPart_ok hparts hsum hi
    exact .inl ⟨some x, hx, rfl⟩
  · obtain ⟨as, rfl⟩ := exists_of_isSome hzs.2
    refine answers_ok ?_
    simpa using hzs.1

/-- A concatenation answers where its output has room. -/
theorem concatenate_ok {parts : List Logical} {es : List Nat} {count : Nat}
    (hparts : List.Forall₂ (IsPart axis sizes) parts es) (hsum : sizes[axis]? = some es.sum)
    (hcount : Size.product sizes = .ok count) (hr : Size.reserve 8 count = .ok ()) :
    ∃ ys, concatenate parts axis sizes = .ok ys ∧ ys.length = count := by
  obtain ⟨zs, hzs⟩ := build_ok hcount hr fun index hi =>
    (fetchPart_ok hparts hsum hi).imp' some fun _ hx => hx
  have hys : concatenate parts axis sizes = .ok (zs.filterMap id) :=
    Result.bind_eq_ok.2 ⟨zs, hzs, rfl⟩
  refine ⟨_, hys, ?_⟩
  obtain ⟨ys, h, hlen⟩ | h | h := concatenate_answers hparts hsum
  · obtain rfl := Except.ok.inj (hys.symm.trans h)
    exact Except.ok.inj (hlen.symm.trans hcount)
  · cases hys.symm.trans h
  · cases hys.symm.trans h

end Kernel
end BufferFusion
