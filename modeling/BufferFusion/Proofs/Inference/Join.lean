import BufferFusion.Proofs.Execution.Demotion

/-!
# Concatenations of known dims

What a concatenation yields when every dim is known: its inputs agree with it off the axis, and
their extents along the axis add up.
-/
namespace BufferFusion.Infer

variable {axis slot i : Nat} {shape firstShape : Shape} {first l : Layout} {as bs : List Nat}
  {out : List Dim} {ls : List Layout}

/-- Two dims after another: they are added on the axis and equal elsewhere. -/
theorem joinDims_known (hlen : as.length = bs.length)
    (h : joinDims axis slot shape firstShape i (as.map .known) (bs.map .known) = .ok out) :
    ∃ ns : List Nat, out = ns.map .known ∧ ns.length = as.length ∧
      (∀ j, i + j ≠ axis → ns[j]? = as[j]? ∧ ns[j]? = bs[j]?) ∧
      ∀ j a b, i + j = axis → as[j]? = some a → bs[j]? = some b → ns[j]? = some (a + b) := by
  induction as generalizing i bs out with
  | nil =>
    obtain rfl := List.eq_nil_of_length_eq_zero hlen.symm
    obtain rfl := Except.ok.inj h
    exact ⟨[], rfl, rfl, by simp, by simp⟩
  | cons a as ih =>
    cases bs with
    | nil => cases hlen
    | cons b bs =>
      obtain ⟨d, rest, hd, hrest, rfl⟩ := joinDims_cons.1 h
      obtain ⟨ns, rfl, hns, hoff, hon⟩ := ih (Nat.succ.inj hlen) hrest
      have hshift : ∀ j, i + (j + 1) = i + 1 + j := fun j => by omega
      by_cases hi : i = axis
      · rw [if_pos hi] at hd
        obtain rfl := Dim.add_eq_ok hd
        refine ⟨(a + b) :: ns, rfl, by simp [hns], ?_, ?_⟩
        · rintro (_ | j) hj
          · omega
          · exact hoff j (by omega)
        · rintro (_ | j) x y hj hx hy
          · obtain rfl := Option.some.inj hx
            obtain rfl := Option.some.inj hy
            rfl
          · omega
      · rw [if_neg hi] at hd
        obtain ⟨rfl, rfl⟩ : d = .known a ∧ a = b := by
          simp only [Dim.merge] at hd
          split at hd
          · next he => exact ⟨(Option.some.inj hd).symm, he⟩
          · cases hd
        refine ⟨a :: ns, rfl, by simp [hns], ?_, ?_⟩
        · rintro (_ | j) hj
          · exact ⟨rfl, rfl⟩
          · exact hoff j (by omega)
        · rintro (_ | j) x y hj hx hy
          · omega
          · exact hon j x y (by omega) hx hy

/-- Several inputs after another. -/
theorem Joined.known (h : Joined axis first (as.map .known) ls out) (hlen : as.length = first.rank)
    (hs : ∀ l ∈ ls, l.isStatic = true) : ∃ ns : List Nat, out = ns.map .known ∧
      ns.length = as.length ∧
      (∀ j, j ≠ axis → ns[j]? = as[j]? ∧ ∀ l ∈ ls, l.shape.dims[j]? = ns[j]?.map .known) ∧
      ∀ a es, as[axis]? = some a →
        List.Forall₂ (fun l e => l.shape.dims[axis]? = some (.known e)) ls es →
          ns[axis]? = some (a + es.sum) := by
  generalize hd : as.map Dim.known = dims at h
  induction h generalizing as with
  | nil =>
    refine ⟨as, hd.symm, rfl, fun j _ => ⟨rfl, by simp⟩, ?_⟩
    rintro a es ha hes
    cases hes
    simpa using ha
  | @cons dims l ls joined out hrank _ _ hjoin _ ih =>
    subst hd
    obtain ⟨sizes, hsizes⟩ := Shape.exists_sizes (hs l List.mem_cons_self)
    have hl : sizes.length = first.rank := by
      rw [← hrank, Layout.rank, Shape.rank, hsizes, List.length_map]
    rw [hsizes] at hjoin
    obtain ⟨ms, rfl, hms, hoff, hon⟩ := joinDims_known (hlen.trans hl.symm) hjoin
    obtain ⟨ns, rfl, hns, hoff', hon'⟩ := ih (hms.trans hlen)
      (fun l' hl' => hs l' (List.mem_cons_of_mem _ hl')) rfl
    refine ⟨ns, rfl, hns.trans hms, fun j hj => ?_, fun a es ha hes => ?_⟩
    · obtain ⟨h₁, h₂⟩ := hoff j (by omega)
      obtain ⟨h₃, h₄⟩ := hoff' j hj
      refine ⟨h₃.trans h₁, fun l' hl' => ?_⟩
      rcases List.mem_cons.1 hl' with rfl | hl'
      · rw [hsizes, List.getElem?_map, h₃, h₂]
      · exact h₄ l' hl'
    · cases hes with
      | @cons _ e _ es hle hes =>
        rw [hsizes] at hle
        have hsum := hon axis a e (by omega) ha (Dim.getElem?_map_known.1 hle)
        rw [hon' _ es hsum hes, List.sum_cons, Nat.add_assoc]

/-- A concatenation of known shapes has one. -/
theorem Yields.concatenation_static {p : Option (List Float)} {ins : List Layout}
    (h : Yields p (.concatenation axis) ins l) (hs : ∀ a ∈ ins, a.isStatic = true) :
    l.isStatic = true := by
  cases h with
  | @concatenation _ first rest dims _ hj =>
    obtain ⟨sizes, hsizes⟩ := Shape.exists_sizes (hs first List.mem_cons_self)
    have hlen : sizes.length = first.rank := by
      rw [Layout.rank, Shape.rank, hsizes, List.length_map]
    rw [hsizes] at hj
    obtain ⟨ns, rfl, -⟩ := hj.known hlen fun a ha => hs a (List.mem_cons_of_mem _ ha)
    exact (Shape.isStatic_iff_sizes? (.ofSizes ns)).2 (by rw [Shape.sizes?_ofSizes]; rfl)

/-- The dims of a concatenation whose inputs have known shapes. -/
theorem Yields.concatenation_dims {p : Option (List Float)} {ins : List Layout}
    (h : Yields p (.concatenation axis) ins l) (hs : ∀ a ∈ ins, a.isStatic = true) :
    (∀ a ∈ ins, ∀ j, j ≠ axis → a.shape.dims[j]? = l.shape.dims[j]?) ∧
      ∀ es, List.Forall₂ (fun a e => a.shape.dims[axis]? = some (.known e)) ins es →
        l.shape.dims[axis]? = some (.known es.sum) := by
  cases h with
  | @concatenation _ first rest dims _ hj =>
    obtain ⟨sizes, hsizes⟩ := Shape.exists_sizes (hs first List.mem_cons_self)
    have hlen : sizes.length = first.rank := by
      rw [Layout.rank, Shape.rank, hsizes, List.length_map]
    rw [hsizes] at hj
    obtain ⟨ns, rfl, -, hoff, hon⟩ :=
      hj.known hlen fun a ha => hs a (List.mem_cons_of_mem _ ha)
    constructor
    · intro a ha j hj
      obtain ⟨h₁, h₂⟩ := hoff j hj
      rcases List.mem_cons.1 ha with rfl | ha
      · rw [hsizes, List.getElem?_map, ← h₁, Layout.unpadded, List.getElem?_map]
      · rw [h₂ a ha, Layout.unpadded, List.getElem?_map]
    · rintro es hes
      cases hes with
      | @cons _ e _ es hle hes =>
        rw [hsizes] at hle
        rw [Layout.unpadded, List.sum_cons]
        exact Dim.getElem?_map_known.2 (hon e es (Dim.getElem?_map_known.1 hle) hes)

end BufferFusion.Infer
