import BufferFusion.Kernel
import BufferFusion.Proofs.Layout.Counts
import BufferFusion.Proofs.Memory.Tabulate

/-!
# Entries of kernels

Which entry of its inputs a kernel puts at an index of its output. A permute that only moves axes of
size one keeps the list of values as it is.
-/
namespace BufferFusion

open Addressing

theorem Logical.fetch_eq_ok {xs : List Float} {dims index : List Nat} {x : Float}
    (h : index.length = dims.length) :
    Logical.fetch ⟨xs.toArray, dims⟩ index = .ok x ↔ xs[position index dims]? = some x := by
  rw [fetch, Result.entry_eq_ok, Index.ravel_eq_position h, List.getElem?_toArray]

namespace Kernel

variable {α : Type} {xs ys : List Float} {dims sizes order offsets index : List Nat}

theorem build_eq_ok {f : List Nat → Result α} {zs : List α} : build sizes f = .ok zs ↔
    Size.product sizes = .ok zs.length ∧ Size.reserve 8 zs.length = .ok () ∧
      ∀ n z, zs[n]? = some z → f (Index.unravel sizes n) = .ok z := by
  simp only [build, Result.bind_eq_ok, tabulate_eq_ok]
  constructor
  · rintro ⟨count, hcount, u, hr, rfl, hall⟩
    exact ⟨hcount, hr, hall⟩
  · rintro ⟨hcount, hr, hall⟩
    exact ⟨_, hcount, (), hr, rfl, hall⟩

/-- A table has room for its entries, where there is a value for each index. -/
theorem build_ok {f : List Nat → Result α} {count : Nat} (hcount : Size.product sizes = .ok count)
    (hr : Size.reserve 8 count = .ok ())
    (h : ∀ index, List.Forall₂ (· < ·) index sizes → ∃ z, f index = .ok z) :
    ∃ zs, build sizes f = .ok zs := by
  have hprod := Size.prod_of_product hcount
  obtain ⟨zs, hzs⟩ := tabulate_ok fun n (hn : n < count) => h _ (Index.unravel_lt (hprod ▸ hn))
  exact ⟨zs, Result.bind_eq_ok.2 ⟨count, hcount, Result.bind_eq_ok.2 ⟨(), hr, hzs⟩⟩⟩

/-- An entry of a table that is built. -/
theorem entry_of_build {f : List Nat → Result α} {zs : List α} (h : build sizes f = .ok zs)
    (hi : List.Forall₂ (· < ·) index sizes) :
    ∃ z, zs[position index sizes]? = some z ∧ f index = .ok z := by
  obtain ⟨hcount, -, hall⟩ := build_eq_ok.1 h
  have hlt : position index sizes < zs.length := by
    rw [← Size.prod_of_product hcount]
    exact position_lt hi
  refine ⟨_, List.getElem?_eq_getElem hlt, ?_⟩
  have := hall _ _ (List.getElem?_eq_getElem hlt)
  rwa [Index.unravel_position hi] at this

/-! ### Crops -/

theorem shift_eq_ok {moved : List Nat} (hlen : index.length = offsets.length)
    (h : shift index offsets = .ok moved) : moved = List.zipWith (· + ·) index offsets := by
  induction index generalizing offsets moved with
  | nil =>
    obtain rfl := Except.ok.inj h
    rfl
  | cons i index ih =>
    obtain _ | ⟨o, offsets⟩ := offsets
    · cases hlen
    obtain ⟨n, hn, h⟩ := Result.bind_eq_ok.1 h
    obtain ⟨rest, hrest, h⟩ := Result.bind_eq_ok.1 h
    obtain rfl := Except.ok.inj h
    rw [ih (by simpa using hlen) hrest, ← (Size.add_eq_ok.1 hn).1, List.zipWith_cons_cons]

theorem shift_of_lt (hlen : index.length = offsets.length)
    (h : ∀ i ∈ List.zipWith (· + ·) index offsets, i < Size.limit) :
    shift index offsets = .ok (List.zipWith (· + ·) index offsets) := by
  induction index generalizing offsets with
  | nil => rfl
  | cons i index ih =>
    obtain _ | ⟨o, offsets⟩ := offsets
    · cases hlen
    rw [List.zipWith_cons_cons, List.forall_mem_cons] at h
    rw [shift, Size.add_eq_ok.2 ⟨rfl, h.1⟩, ih (Nat.succ.inj hlen) h.2]
    rfl

theorem getElem?_crop (h : crop ⟨xs.toArray, dims⟩ offsets sizes = .ok ys)
    (ho : offsets.length = dims.length) (hs : sizes.length = dims.length)
    (hi : List.Forall₂ (· < ·) index sizes) :
    ys[position index sizes]? = xs[position (List.zipWith (· + ·) index offsets) dims]? := by
  obtain ⟨y, hy, hf⟩ := entry_of_build h hi
  obtain ⟨moved, hmoved, hf⟩ := Result.bind_eq_ok.1 hf
  have hlen : index.length = offsets.length := by rw [hi.length_eq, hs, ho]
  obtain rfl := shift_eq_ok hlen hmoved
  rw [Logical.fetch_eq_ok (by simp [hlen, ho])] at hf
  rw [hy, hf]

/-! ### Permutes -/

theorem length_scatter (rank : Nat) (order index : List Nat) :
    (scatter rank order index).length = rank := by
  suffices ∀ (qs : List (Nat × Nat)) (input : List Nat),
      (qs.foldl (fun input q => input.set q.1 q.2) input).length = input.length by
    rw [scatter, this, List.length_replicate]
  intro qs
  induction qs with
  | nil => exact fun _ => rfl
  | cons q qs ih =>
    intro input
    rw [List.foldl_cons, ih, List.length_set]

theorem getElem?_scatter {rank : Nat} (hn : order.Nodup) (ho : ∀ a ∈ order, a < rank)
    (hlen : order.length = index.length) {j a : Nat} (ha : order[j]? = some a) :
    (scatter rank order index)[a]? = index[j]? := by
  suffices ∀ (order index input : List Nat), order.Nodup → (∀ a ∈ order, a < input.length) →
      order.length = index.length →
      (∀ j a, order[j]? = some a → ((order.zip index).foldl (fun input q => input.set q.1 q.2)
        input)[a]? = index[j]?) ∧
      ∀ a, a ∉ order → ((order.zip index).foldl (fun input q => input.set q.1 q.2) input)[a]? =
        input[a]? from
    (this order index (List.replicate rank 0) hn (by simpa using ho) hlen).1 j a ha
  intro order
  induction order with
  | nil =>
    intro index input _ _ _
    exact ⟨by simp, by simp⟩
  | cons b order ih =>
    intro index input hn ho hlen
    obtain _ | ⟨i, index⟩ := index
    · cases hlen
    rw [List.nodup_cons] at hn
    rw [List.forall_mem_cons] at ho
    obtain ⟨hset, hkeep⟩ := ih index (input.set b i) hn.2 (by simpa using ho.2) (by simpa using hlen)
    rw [List.zip_cons_cons, List.foldl_cons]
    constructor
    · intro j a ha
      cases j with
      | zero =>
        obtain rfl := Option.some.inj ha
        rw [hkeep _ hn.1, List.getElem?_set_self ho.1]
        rfl
      | succ j => exact hset j a ha
    · intro a ha
      rw [List.mem_cons, not_or] at ha
      rw [hkeep a ha.2, List.getElem?_set_ne (Ne.symm ha.1)]

/-- Axes of size one have no part in a position. -/
theorem foldl_longer {qs : List (Nat × Nat)} (h : ∀ q ∈ qs, q.1 < q.2) (n : Nat) :
    qs.foldl (fun n q => n * q.2 + q.1) n =
      (qs.filter (·.2 ≠ 1)).foldl (fun n q => n * q.2 + q.1) n := by
  induction qs generalizing n with
  | nil => rfl
  | cons q qs ih =>
    rw [List.forall_mem_cons] at h
    rw [List.foldl_cons, ih h.2, List.filter_cons]
    by_cases hq : q.2 = 1
    · have hzero : q.1 = 0 := by omega
      simp [hq, hzero]
    · simp [hq]

/-- An order without an obstacle leaves the axes that are longer than one where they are. -/
theorem pairwise_of_obstacle {previous : Option Nat} {unknown : Bool}
    (h : Fuse.orderObstacle? (dims.map .known) previous unknown order = .ok none) :
    (∀ p, previous = some p → ∀ a ∈ order, dims.getD a 0 ≠ 1 → p ≤ a) ∧
      (order.filter (dims.getD · 0 ≠ 1)).Pairwise (· ≤ ·) := by
  induction order generalizing previous unknown with
  | nil => exact ⟨by simp, .nil⟩
  | cons axis order ih =>
    obtain ⟨d, hd, h⟩ := Result.bind_eq_ok.1 h
    rw [Result.entry_eq_ok, List.getElem?_map, Option.map_eq_some_iff] at hd
    obtain ⟨n, hn, rfl⟩ := hd
    have hget : dims.getD axis 0 = n := by rw [List.getD_eq_getElem?_getD, hn, Option.getD_some]
    by_cases hunit : n = 1
    · have : (Dim.known n).isUnit = true := by simp [Dim.isUnit, hunit]
      rw [if_pos this] at h
      obtain ⟨hbelow, hsorted⟩ := ih h
      rw [List.filter_cons, if_neg (by simp [hunit, hn])]
      refine ⟨fun p hp a ha hne => ?_, hsorted⟩
      rcases List.mem_cons.1 ha with rfl | ha
      · exact absurd (hget.trans hunit) hne
      · exact hbelow p hp a ha hne
    · have : ¬ (Dim.known n).isUnit = true := by simp [Dim.isUnit, hunit]
      rw [if_neg this] at h
      by_cases hprev : previous.any (axis < ·) = true
      · rw [if_pos hprev] at h
        cases Except.ok.inj h
      · rw [if_neg hprev] at h
        obtain ⟨hbelow, hsorted⟩ := ih h
        rw [List.filter_cons, if_pos (by simp [hunit, hn]), List.pairwise_cons]
        refine ⟨fun p hp a ha hne => ?_, fun a ha => ?_, hsorted⟩
        · subst hp
          have hp : p ≤ axis := by simpa using hprev
          rcases List.mem_cons.1 ha with rfl | ha
          · exact hp
          · exact hp.trans (hbelow axis rfl a ha hne)
        · obtain ⟨ha, hne⟩ := List.mem_filter.1 ha
          exact hbelow axis rfl a ha (by simpa using hne)

/-- Nothing is in the way of an order that leaves those axes in ascending order. -/
theorem obstacle_of_pairwise {previous : Option Nat} {unknown : Bool}
    (hbelow : ∀ p, previous = some p → ∀ a ∈ order, dims.getD a 0 ≠ 1 → p ≤ a)
    (hsorted : (order.filter (dims.getD · 0 ≠ 1)).Pairwise (· ≤ ·))
    (ho : ∀ a ∈ order, a < dims.length) :
    Fuse.orderObstacle? (dims.map .known) previous unknown order = .ok none := by
  induction order generalizing previous unknown with
  | nil => rfl
  | cons axis order ih =>
    rw [List.forall_mem_cons] at ho
    have hrest := fun p hp a ha => hbelow p hp a (List.mem_cons_of_mem _ ha)
    have hget : dims.getD axis 0 = dims[axis] := by simp [ho.1]
    have hd : Result.entry (dims.map Dim.known)[axis]? = .ok (.known dims[axis]) := by
      rw [Result.entry_eq_ok]
      simp [ho.1]
    rw [Fuse.orderObstacle?, hd]
    simp only [bind, Except.bind]
    split
    · next hunit =>
      have hone : dims[axis] = 1 := by simpa [Dim.isUnit] using hunit
      rw [List.filter_cons, if_neg (by simp [ho.1, hone])] at hsorted
      exact ih hrest hsorted ho.2
    · next hlong =>
      have hone : dims[axis] ≠ 1 := by simpa [Dim.isUnit] using hlong
      rw [List.filter_cons, if_pos (by simp [ho.1, hone]), List.pairwise_cons] at hsorted
      have hprev : ¬ previous.any (axis < ·) = true := by
        cases previous with
        | none => simp
        | some p => simpa using hbelow p rfl axis List.mem_cons_self (hget ▸ hone)
      rw [if_neg hprev]
      refine ih (fun p hp a ha hne => ?_) hsorted.2 ho.2
      obtain rfl := Option.some.inj hp
      exact hsorted.1 a (List.mem_filter.2 ⟨ha, by simpa using hne⟩)

theorem lt_of_isPermutation (hp : Infer.isPermutation order = true)
    (hlen : order.length = dims.length) : ∀ a ∈ order, a < dims.length := fun _ ha =>
  hlen ▸ List.mem_range.1 ((Infer.perm_range_of_isPermutation hp).2.mem_iff.1 ha)

theorem map_getD_range (dims : List Nat) : (List.range dims.length).map (dims.getD · 0) = dims :=
  List.ext_getElem (by simp) fun j hj hj' => by simp [hj']

/-- An order without an obstacle has the axes that are longer than one as they were. -/
theorem filter_of_obstacle (hp : Infer.isPermutation order = true)
    (hlen : order.length = dims.length)
    (ho : Fuse.orderObstacle? (dims.map .known) none false order = .ok none) :
    order.filter (dims.getD · 0 ≠ 1) = (List.range dims.length).filter (dims.getD · 0 ≠ 1) := by
  obtain ⟨-, hperm⟩ := Infer.perm_range_of_isPermutation hp
  rw [hlen] at hperm
  exact List.Perm.eq_of_pairwise (fun a b _ _ => Nat.le_antisymm) (pairwise_of_obstacle ho).2
    (List.Pairwise.filter _ List.pairwise_le_range) (hperm.filter _)

theorem permute_eq_ok (h : permute ⟨xs.toArray, dims⟩ order = .ok ys) : ∃ sizes,
    List.Forall₂ (fun axis n => dims[axis]? = some n) order sizes ∧
      build sizes (fun index => Logical.fetch ⟨xs.toArray, dims⟩ (scatter dims.length order index)) =
        .ok ys := by
  obtain ⟨sizes, hsizes, h⟩ := Result.bind_eq_ok.1 h
  refine ⟨sizes, (Result.mapM_eq_ok.1 hsizes).imp fun axis n hn => ?_, h⟩
  exact Result.entry_eq_ok.1 hn

/-- Moving unit axes changes no position. -/
theorem position_scatter (hp : Infer.isPermutation order = true) (hlen : order.length = dims.length)
    (ho : Fuse.orderObstacle? (dims.map .known) none false order = .ok none)
    (hsizes : List.Forall₂ (fun axis n => dims[axis]? = some n) order sizes)
    (hi : List.Forall₂ (· < ·) index sizes) :
    position (scatter dims.length order index) dims = position index sizes := by
  obtain ⟨hnodup, hperm⟩ := Infer.perm_range_of_isPermutation hp
  rw [hlen] at hperm
  have hbelow := lt_of_isPermutation hp hlen
  have hindex : order.length = index.length := hsizes.length_eq.trans hi.length_eq.symm
  have hscatter := length_scatter dims.length order index
  -- both sides fold the same pairs of coordinate and size, in two orders
  let pair (a : Nat) : Nat × Nat := ((scatter dims.length order index).getD a 0, dims.getD a 0)
  have hleft : (scatter dims.length order index).zip dims = (List.range dims.length).map pair := by
    refine List.ext_getElem (by simp [hscatter]) fun j hj hj' => ?_
    have hj : j < dims.length := by simpa using hj'
    simp [pair, hscatter, hj]
  have hright : index.zip sizes = order.map pair := by
    refine List.ext_getElem (by simp [hi.length_eq, ← hsizes.length_eq]) fun j hj hj' => ?_
    have hj : j < order.length := by simpa using hj'
    have hj₁ : j < index.length := hindex ▸ hj
    have hj₂ : j < sizes.length := hsizes.length_eq ▸ hj
    have hget := getElem?_scatter hnodup hbelow hindex (List.getElem?_eq_getElem hj)
    have hsize : dims[order[j]]? = some sizes[j] := hsizes.get hj hj₂
    simp [pair, hget, hsize, List.getElem?_eq_getElem hj₁]
  have hlt : ∀ q ∈ index.zip sizes, q.1 < q.2 := fun q hq => (List.forall₂_iff_zip.1 hi).2 hq
  have hsame : (index.zip sizes).Perm ((scatter dims.length order index).zip dims) := by
    rw [hleft, hright]
    exact hperm.map pair
  have hlt' : ∀ q ∈ (scatter dims.length order index).zip dims, q.1 < q.2 := fun q hq =>
    hlt q (hsame.mem_iff.2 hq)
  rw [Index.position_eq_foldl hscatter, Index.position_eq_foldl hi.length_eq, foldl_longer hlt',
    foldl_longer hlt, hleft, hright, List.filter_map, List.filter_map]
  have hcomp : (fun q : Nat × Nat => decide (q.2 ≠ 1)) ∘ pair =
      fun a => decide (dims.getD a 0 ≠ 1) := rfl
  rw [hcomp, filter_of_obstacle hp hlen ho]

/-- A permute that moves unit axes only keeps the values in their order. -/
theorem permute_eq_self (hp : Infer.isPermutation order = true) (hlen : order.length = dims.length)
    (ho : Fuse.orderObstacle? (dims.map .known) none false order = .ok none)
    (hx : xs.length = dims.prod) (h : permute ⟨xs.toArray, dims⟩ order = .ok ys) : ys = xs := by
  obtain ⟨sizes, hsizes, hbuild⟩ := permute_eq_ok h
  obtain ⟨hcount, -, hall⟩ := build_eq_ok.1 hbuild
  have hprod : sizes.prod = dims.prod := by
    obtain ⟨-, hperm⟩ := Infer.perm_range_of_isPermutation hp
    have hmap : sizes = order.map (dims.getD · 0) := by
      refine List.ext_getElem (by simp [hsizes.length_eq]) fun j hj hj' => ?_
      have hj' : j < order.length := hsizes.length_eq ▸ hj
      have hsize : dims[order[j]]? = some sizes[j] := hsizes.get hj' hj
      simp [hsize]
    rw [hmap, (hperm.map _).prod_eq, hlen, map_getD_range]
  have hys := Size.prod_of_product hcount
  refine List.ext_getElem? fun n => ?_
  by_cases hn : n < sizes.prod
  · have hi := Index.unravel_lt hn
    have hn' : n < ys.length := by omega
    have hy := hall n _ (List.getElem?_eq_getElem hn')
    rw [Logical.fetch_eq_ok (length_scatter ..), position_scatter hp hlen ho hsizes hi,
      Index.position_unravel hn] at hy
    rw [hy, List.getElem?_eq_getElem hn']
  · rw [List.getElem?_eq_none (by omega), List.getElem?_eq_none (by omega)]

/-! ### Concatenations -/

/-- The part that a coordinate falls into. -/
theorem exists_slot {es : List Nat} {coord : Nat} (h : coord < es.sum) :
    ∃ i e : Nat, es[i]? = some e ∧ (es.take i).sum ≤ coord ∧ coord < (es.take i).sum + e := by
  induction es generalizing coord with
  | nil => exact absurd h (Nat.not_lt_zero coord)
  | cons e es ih =>
    rw [List.sum_cons] at h
    by_cases hlt : coord < e
    · exact ⟨0, e, rfl, Nat.zero_le _, by simpa using hlt⟩
    · obtain ⟨i, e', he, hlo, hhi⟩ := @ih (coord - e) (by omega)
      refine ⟨i + 1, e', he, ?_, ?_⟩
      · rw [List.take_succ_cons, List.sum_cons]
        omega
      · rw [List.take_succ_cons, List.sum_cons]
        omega

theorem fetchPart_eq {axis i e coord : Nat} {parts : List Logical} {part : Logical} {es : List Nat}
    (hx : List.Forall₂ (fun (p : Logical) e => p.sizes[axis]? = some e) parts es)
    (hp : parts[i]? = some part) (he : es[i]? = some e) (hlo : (es.take i).sum ≤ coord)
    (hhi : coord < (es.take i).sum + e) : fetchPart axis index coord parts =
      some <$> part.fetch (index.set axis (coord - (es.take i).sum)) := by
  induction hx generalizing i coord with
  | nil => cases hp
  | @cons p e' parts es hpe hrest ih =>
    rw [fetchPart, hpe]
    simp only [Result.entry, bind, Except.bind]
    cases i with
    | zero =>
      obtain rfl := Option.some.inj hp
      obtain rfl := Option.some.inj he
      rw [List.take_zero, List.sum_nil, Nat.zero_add] at hhi
      rw [if_pos hhi, List.take_zero, List.sum_nil, Nat.sub_zero]
    | succ i =>
      rw [List.take_succ_cons, List.sum_cons] at hlo hhi ⊢
      rw [if_neg (by omega), ih hp he (by omega) (by omega), Nat.sub_sub]

theorem exists_of_isSome {zs : List (Option α)} (h : ∀ z ∈ zs, z.isSome = true) :
    ∃ as : List α, zs = as.map some := by
  refine ⟨zs.filterMap id, List.ext_getElem? fun n => ?_⟩
  induction zs generalizing n with
  | nil => rfl
  | cons z zs ih =>
    rw [List.forall_mem_cons] at h
    obtain ⟨a, rfl⟩ := Option.isSome_iff_exists.1 h.1
    cases n with
    | zero => rfl
    | succ n => simpa using ih h.2 n

/-- An entry of a concatenation comes from the part that its coordinate on the axis falls into. -/
theorem getElem?_concatenate {axis : Nat} {parts : List Logical} {es : List Nat}
    (hx : List.Forall₂ (fun (p : Logical) e => p.sizes[axis]? = some e) parts es)
    (hsum : sizes[axis]? = some es.sum) (h : concatenate parts axis sizes = .ok ys)
    (hi : List.Forall₂ (· < ·) index sizes) {i e coord : Nat} (hc : index[axis]? = some coord)
    (hp : parts[i]? = some ⟨xs.toArray, dims⟩) (hlen : dims.length = sizes.length)
    (he : es[i]? = some e) (hlo : (es.take i).sum ≤ coord) (hhi : coord < (es.take i).sum + e) :
    ys[position index sizes]? = xs[position (index.set axis (coord - (es.take i).sum)) dims]? := by
  obtain ⟨zs, hzs, h⟩ := Result.bind_eq_ok.1 h
  obtain rfl := Except.ok.inj h
  -- no index is past the last part
  have hsome : ∀ z ∈ zs, z.isSome = true := by
    intro z hz
    obtain ⟨n, hn, rfl⟩ := List.mem_iff_getElem.1 hz
    obtain ⟨hcount, -, hall⟩ := build_eq_ok.1 hzs
    have hlt := Index.unravel_lt (Size.prod_of_product hcount ▸ hn)
    obtain ⟨c, hc, hf⟩ := Result.bind_eq_ok.1 (hall n _ (List.getElem?_eq_getElem hn))
    have hcoord : c < es.sum := forall₂_getElem? hlt (Result.entry_eq_ok.1 hc) hsum
    obtain ⟨j, e', he', hlo', hhi'⟩ := exists_slot hcoord
    have hj : j < parts.length := hx.length_eq ▸ (List.getElem?_eq_some_iff.1 he').1
    rw [fetchPart_eq hx (List.getElem?_eq_getElem hj) he' hlo' hhi'] at hf
    obtain ⟨x, -, hx⟩ := Result.map_eq_ok.1 hf
    rw [← hx]
    rfl
  obtain ⟨z, hz, hf⟩ := entry_of_build hzs hi
  obtain ⟨c, hc', hf⟩ := Result.bind_eq_ok.1 hf
  obtain rfl := Option.some.inj (hc.symm.trans (Result.entry_eq_ok.1 hc'))
  rw [fetchPart_eq hx hp he hlo hhi] at hf
  obtain ⟨x, hx, rfl⟩ := Result.map_eq_ok.1 hf
  rw [Logical.fetch_eq_ok (by rw [List.length_set, hi.length_eq, hlen])] at hx
  obtain ⟨as, rfl⟩ := exists_of_isSome hsome
  rw [hx]
  simpa using hz

/-! ### Values that are handed on -/

theorem mem_of_fetch {v : Logical} {x : Float} (h : v.fetch index = .ok x) : x ∈ v.values :=
  Array.mem_of_getElem? (Result.entry_eq_ok.1 h)

theorem exists_of_mem_build {f : List Nat → Result α} {zs : List α} (h : build sizes f = .ok zs)
    {z : α} (hz : z ∈ zs) : ∃ index, f index = .ok z := by
  obtain ⟨i, hi⟩ := List.mem_iff_getElem?.1 hz
  obtain ⟨-, -, hall⟩ := build_eq_ok.1 h
  exact ⟨_, hall i z hi⟩

theorem mem_of_permute {v : Logical} (h : permute v order = .ok ys) {y : Float} (hy : y ∈ ys) :
    y ∈ v.values := by
  obtain ⟨_, -, h⟩ := Result.bind_eq_ok.1 h
  obtain ⟨_, hf⟩ := exists_of_mem_build h hy
  exact mem_of_fetch hf

theorem mem_of_crop {v : Logical} (h : crop v offsets sizes = .ok ys) {y : Float} (hy : y ∈ ys) :
    y ∈ v.values := by
  obtain ⟨_, hf⟩ := exists_of_mem_build h hy
  obtain ⟨_, -, hf⟩ := Result.bind_eq_ok.1 hf
  exact mem_of_fetch hf

theorem mem_of_fetchPart {axis coord : Nat} {parts : List Logical} {y : Float}
    (h : fetchPart axis index coord parts = .ok (some y)) : ∃ part ∈ parts, y ∈ part.values := by
  induction parts generalizing coord with
  | nil => cases h
  | cons part parts ih =>
    obtain ⟨extent, -, h⟩ := Result.bind_eq_ok.1 h
    split at h
    · obtain ⟨x, hx, h⟩ := Result.map_eq_ok.1 h
      obtain rfl := Option.some.inj h
      exact ⟨part, List.mem_cons_self, mem_of_fetch hx⟩
    · obtain ⟨q, hq, hy⟩ := ih h
      exact ⟨q, List.mem_cons_of_mem _ hq, hy⟩

theorem mem_of_concatenate {axis : Nat} {parts : List Logical}
    (h : concatenate parts axis sizes = .ok ys) {y : Float} (hy : y ∈ ys) :
    ∃ part ∈ parts, y ∈ part.values := by
  obtain ⟨zs, hzs, h⟩ := Result.bind_eq_ok.1 h
  obtain rfl := Except.ok.inj h
  obtain ⟨z, hz, hzy⟩ := List.mem_filterMap.1 hy
  obtain ⟨_, hf⟩ := exists_of_mem_build hzs hz
  obtain ⟨_, -, hf⟩ := Result.bind_eq_ok.1 hf
  exact mem_of_fetchPart (hf.trans (congrArg Except.ok hzy))

end Kernel
end BufferFusion
