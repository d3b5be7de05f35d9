import BufferFusion.Proofs.Layout.Counts

/-!
# Patterns of reshapes

Of all shapes that match a pattern and have as many elements as the input, a reshape answers the
one there is; where there is none, or more than one, it fails. What a reshape finds before all dims
are known holds for every input that they turn out to be.
-/
namespace BufferFusion.Shape

variable {input input' s : Shape} {pattern vs : List Int} {copyZeros : Bool} {axis i n : Nat}
  {before found : Option Nat} {v : Int} {d : Dim} {dims rest : List Dim} {ns sizes : List Nat}

/-- A pattern that can be read: one `-1` at most, nothing below it, and no copy of an axis that the
input does not have. -/
structure Readable (input : Shape) (pattern : List Int) (copyZeros : Bool) : Prop where
  inferred : pattern.count (-1) ≤ 1
  valid : ∀ v ∈ pattern, -1 ≤ v
  copies : copyZeros = true → ∀ axis, pattern[axis]? = some 0 → axis < input.rank

/-- What a value of a pattern says about the size of its axis. -/
def Allows (input : Shape) (copyZeros : Bool) (axis : Nat) (v : Int) (n : Nat) : Prop :=
  if v = -1 then True
  else if v = 0 ∧ copyZeros then input.dims[axis]? = some (.known n)
  else v = n

/-- Sizes that match a pattern axis by axis. -/
def Matches (input : Shape) (pattern : List Int) (copyZeros : Bool) (sizes : List Nat) : Prop :=
  sizes.length = pattern.length ∧ ∀ axis v n, pattern[axis]? = some v → sizes[axis]? = some n →
    Allows input copyZeros axis v n

/-- The sizes that a pattern gives, from `axis` on: all but the inferred one. -/
def givenSizes (input : List Nat) (copyZeros : Bool) : Nat → List Int → List Nat
  | _, [] => []
  | axis, v :: vs =>
    let rest := givenSizes input copyZeros (axis + 1) vs
    if v = -1 then rest
    else if v = 0 ∧ copyZeros then input.getD axis 0 :: rest
    else v.toNat :: rest

/-! ### Reading a pattern -/

/-- A value of a pattern that can be read as a dim. -/
def Reads (input : Shape) (copyZeros : Bool) (axis : Nat) (v : Int) (d : Dim) : Prop :=
  if v = -1 then d = .unknown
  else if v = 0 ∧ copyZeros then input.dims[axis]? = some d
  else 0 ≤ v ∧ d = .known v.toNat

theorem patternDims_cons : patternDims input pattern copyZeros axis before (v :: vs) =
      .ok (dims, found) ↔
    ∃ d rest, dims = d :: rest ∧ Reads input copyZeros axis v d ∧ (v = -1 → before = none) ∧
      patternDims input pattern copyZeros (axis + 1) (if v = -1 then some axis else before) vs =
        .ok (rest, found) := by
  have hcons : ∀ (d : Dim) (r : Result (List Dim × Option Nat)),
      (r >>= fun p => pure (d :: p.1, p.2)) = .ok (dims, found) ↔
        ∃ rest, dims = d :: rest ∧ r = .ok (rest, found) := by
    intro d r
    rw [Result.bind_eq_ok]
    constructor
    · rintro ⟨⟨rest, f⟩, hr, h⟩
      obtain ⟨rfl, rfl⟩ := Prod.mk.inj (Except.ok.inj h)
      exact ⟨rest, rfl, hr⟩
    · rintro ⟨rest, rfl, hr⟩
      exact ⟨_, hr, rfl⟩
  simp only [patternDims, Reads]
  by_cases hv : v = -1
  · subst hv
    cases before with
    | some b => simp
    | none =>
      refine (hcons _ _).trans ?_
      simp
  · simp only [if_neg hv]
    by_cases hz : v = 0 ∧ copyZeros = true
    · simp only [if_pos hz]
      cases input.dims[axis]? with
      | none => simp
      | some d =>
        refine (hcons _ _).trans ?_
        simp [hv]
    · simp only [if_neg hz]
      by_cases hneg : v < 0
      · rw [if_pos hneg]
        simp only [reduceCtorEq, false_iff]
        rintro ⟨d, rest, -, ⟨h, -⟩, -⟩
        omega
      · rw [if_neg hneg]
        refine (hcons _ _).trans ?_
        simp [hv, Int.not_lt.1 hneg]

theorem exists_reads : (∃ d, Reads input copyZeros axis v d) ↔
    -1 ≤ v ∧ (copyZeros = true → v = 0 → axis < input.rank) := by
  unfold Reads
  split
  · next hv => simp [hv]
  · split
    · next hv hz =>
      simp only [hz.1, hz.2, forall_const]
      exact ⟨fun ⟨d, hd⟩ => ⟨by omega, (List.getElem?_eq_some_iff.1 hd).1⟩,
        fun h => ⟨_, List.getElem?_eq_getElem h.2⟩⟩
    · next hv hz =>
      have hcopy : copyZeros = true → v = 0 → axis < input.rank := fun hc h0 => absurd ⟨h0, hc⟩ hz
      simp only [exists_and_left, exists_eq, and_true, iff_true_intro hcopy]
      omega

/-- What it takes to read the rest of a pattern. -/
theorem exists_patternDims :
    (∃ dims found, patternDims input pattern copyZeros axis before vs = .ok (dims, found)) ↔
      (before.isSome = true → -1 ∉ vs) ∧ vs.count (-1) ≤ 1 ∧ (∀ v ∈ vs, -1 ≤ v) ∧
        (copyZeros = true → ∀ i, vs[i]? = some 0 → axis + i < input.rank) := by
  induction vs generalizing axis before with
  | nil => simp [patternDims]
  | cons v vs ih =>
    have hstep : (∃ dims found,
          patternDims input pattern copyZeros axis before (v :: vs) = .ok (dims, found)) ↔
        (∃ d, Reads input copyZeros axis v d) ∧ (v = -1 → before = none) ∧
          ∃ rest found, patternDims input pattern copyZeros (axis + 1)
            (if v = -1 then some axis else before) vs = .ok (rest, found) := by
      simp only [patternDims_cons]
      constructor
      · rintro ⟨_, found, d, rest, -, hd, hb, hr⟩
        exact ⟨⟨d, hd⟩, hb, rest, found, hr⟩
      · rintro ⟨⟨d, hd⟩, hb, rest, found, hr⟩
        exact ⟨_, found, d, rest, rfl, hd, hb, hr⟩
    have hcopies : (copyZeros = true → ∀ i, (v :: vs)[i]? = some 0 → axis + i < input.rank) ↔
        (copyZeros = true → v = 0 → axis < input.rank) ∧
          (copyZeros = true → ∀ i, vs[i]? = some 0 → axis + 1 + i < input.rank) := by
      constructor
      · intro h
        refine ⟨fun hc hv => h hc 0 (by simp [hv]), fun hc i hi => ?_⟩
        have := h hc (i + 1) hi
        omega
      · rintro ⟨h₀, h₁⟩ hc (_ | i) hi
        · exact h₀ hc (Option.some.inj hi)
        · have := h₁ hc i hi
          omega
    rw [hstep, ih, exists_reads, hcopies, List.forall_mem_cons]
    by_cases hv : v = -1
    · subst hv
      have hcount : List.count (-1) (-1 :: vs) ≤ 1 ↔ -1 ∉ vs := by
        rw [List.count_cons_self, ← List.count_eq_zero]
        omega
      rw [hcount]
      cases before <;> simp +contextual [List.count_eq_zero.2]
    · rw [if_neg hv, List.count_cons_of_ne (by simpa using hv)]
      simp only [List.mem_cons, Ne.symm hv, false_or, hv, false_imp_iff, true_and]
      tauto

theorem readable_iff : Readable input pattern copyZeros ↔ ∃ dims found,
    patternDims input pattern copyZeros 0 none pattern = .ok (dims, found) := by
  rw [exists_patternDims]
  simp only [Option.isSome_none, Bool.false_eq_true, false_imp_iff, true_and, Nat.zero_add]
  exact ⟨fun h => ⟨h.inferred, h.valid, h.copies⟩, fun h => ⟨h.1, h.2.1, h.2.2⟩⟩

/-- A pattern that cannot be read is a misfit, and one for every input of that rank. -/
theorem patternDims_eq_error {e : Error} (hrank : input'.rank = input.rank)
    (h : patternDims input pattern copyZeros axis before vs = .error e) :
    (∃ cause, e = .misfit cause) ∧
      patternDims input' pattern copyZeros axis before vs = .error e := by
  induction vs generalizing axis before with
  | nil => cases h
  | cons v vs ih =>
    have hrest : ∀ {b : Option Nat} (d d' : Dim),
        (patternDims input pattern copyZeros (axis + 1) b vs >>= fun p => pure (d :: p.1, p.2)) =
          .error e →
        (∃ cause, e = .misfit cause) ∧ (patternDims input' pattern copyZeros (axis + 1) b vs >>=
          fun p => pure (d' :: p.1, p.2)) = .error e := by
      intro b d d' h
      cases hr : patternDims input pattern copyZeros (axis + 1) b vs with
      | ok p => rw [hr] at h; cases h
      | error e' =>
        rw [hr] at h
        cases h
        obtain ⟨hcause, hr'⟩ := ih hr
        rw [hr']
        exact ⟨hcause, rfl⟩
    simp only [patternDims] at h ⊢
    split at h
    · next hv =>
      rw [if_pos hv]
      split at h
      · next hb =>
        cases h
        exact ⟨⟨_, rfl⟩, by rw [if_pos hb]⟩
      · next hb =>
        rw [if_neg hb]
        exact hrest _ _ h
    · next hv =>
      rw [if_neg hv]
      split at h
      · next hz =>
        rw [if_pos hz]
        split at h
        · next hd =>
          cases h
          have hd' : input'.dims[axis]? = none := by
            rw [List.getElem?_eq_none_iff] at hd ⊢
            exact (Nat.le_of_eq hrank).trans hd
          rw [hd']
          exact ⟨⟨_, rfl⟩, rfl⟩
        · next d hd =>
          have hlt : axis < input'.dims.length :=
            Nat.lt_of_lt_of_eq (List.getElem?_eq_some_iff.1 hd).1 hrank.symm
          rw [List.getElem?_eq_getElem hlt]
          exact hrest _ _ h
      · next hz =>
        rw [if_neg hz]
        split at h
        · next hneg =>
          cases h
          exact ⟨⟨_, rfl⟩, by rw [if_pos hneg]⟩
        · next hneg =>
          rw [if_neg hneg]
          exact hrest _ _ h

theorem getElem?_patternDims
    (h : patternDims input pattern copyZeros axis before vs = .ok (dims, found)) :
    dims.length = vs.length ∧ ∀ i v d, vs[i]? = some v → dims[i]? = some d →
      Reads input copyZeros (axis + i) v d := by
  induction vs generalizing axis before dims with
  | nil =>
    obtain ⟨rfl, rfl⟩ := Prod.mk.inj (Except.ok.inj h)
    simp
  | cons v vs ih =>
    obtain ⟨d, rest, rfl, hd, -, hr⟩ := patternDims_cons.1 h
    obtain ⟨hlen, hall⟩ := ih hr
    refine ⟨by simp [hlen], ?_⟩
    rintro (_ | i) w e hw he
    · obtain rfl := Option.some.inj hw
      obtain rfl := Option.some.inj he
      exact hd
    · have := hall i w e hw he
      rwa [Nat.add_assoc, Nat.add_comm 1 i] at this

/-! ### Patterns over known dims -/

/-- Of known dims, a pattern leaves the inferred one open and no other. -/
theorem patternDims_ofSizes
    (h : patternDims (ofSizes ns) pattern copyZeros axis before vs = .ok (dims, found)) :
    (found = before ∧ dims = (givenSizes ns copyZeros axis vs).map .known) ∨
      before = none ∧ ∃ i, found = some (axis + i) ∧ i ≤ (givenSizes ns copyZeros axis vs).length ∧
        dims = ((givenSizes ns copyZeros axis vs).map .known).insertIdx i .unknown := by
  induction vs generalizing axis before dims with
  | nil =>
    obtain ⟨rfl, rfl⟩ := Prod.mk.inj (Except.ok.inj h)
    exact .inl ⟨rfl, rfl⟩
  | cons v vs ih =>
    obtain ⟨d, rest, rfl, hd, hb, hr⟩ := patternDims_cons.1 h
    by_cases hv : v = -1
    · rw [if_pos hv] at hr
      obtain rfl : d = .unknown := by simpa [Reads, hv] using hd
      simp only [givenSizes, if_pos hv]
      -- nothing else is inferred behind it
      obtain ⟨rfl, rfl⟩ | ⟨hnone, -⟩ := ih hr
      · exact .inr ⟨hb hv, 0, rfl, Nat.zero_le _, rfl⟩
      · cases hnone
    · rw [if_neg hv] at hr
      obtain ⟨m, rfl, hm⟩ : ∃ m, d = .known m ∧ givenSizes ns copyZeros axis (v :: vs) =
          m :: givenSizes ns copyZeros (axis + 1) vs := by
        simp only [Reads, if_neg hv] at hd
        simp only [givenSizes, if_neg hv]
        split at hd
        · next hz =>
          rw [if_pos hz, ofSizes, List.getElem?_map, Option.map_eq_some_iff] at *
          obtain ⟨m, hm, rfl⟩ := hd
          exact ⟨m, rfl, by simp [hm]⟩
        · next hz => exact ⟨v.toNat, hd.2, by rw [if_neg hz]⟩
      rw [hm]
      obtain ⟨rfl, rfl⟩ | ⟨hb, i, rfl, hi, rfl⟩ := ih hr
      · exact .inl ⟨rfl, rfl⟩
      · exact .inr ⟨hb, i + 1, by rw [Nat.add_assoc, Nat.add_comm 1 i], Nat.succ_le_succ hi, rfl⟩

theorem allows_iff (h : Reads (ofSizes ns) copyZeros axis v d) :
    Allows (ofSizes ns) copyZeros axis v n ↔ (Dim.known n).Refines d := by
  unfold Reads at h
  unfold Allows
  split at h
  · next hv => simp [hv, h, Dim.refines_unknown]
  · next hv =>
    rw [if_neg hv]
    split at h
    · next hz =>
      rw [ofSizes, List.getElem?_map, Option.map_eq_some_iff] at h
      obtain ⟨m, hm, rfl⟩ := h
      rw [if_pos hz, ofSizes, List.getElem?_map, hm, Dim.refines_known]
      simp [eq_comm]
    · next hz =>
      rw [if_neg hz, h.2, Dim.refines_known, Dim.known.injEq]
      omega

/-- The sizes that match are those that the dims of the pattern leave open. -/
theorem matches_iff
    (h : patternDims (ofSizes ns) pattern copyZeros 0 none pattern = .ok (dims, found)) :
    Matches (ofSizes ns) pattern copyZeros sizes ↔
      List.Forall₂ Dim.Refines (sizes.map .known) dims := by
  obtain ⟨hlen, hreads⟩ := getElem?_patternDims h
  simp only [Nat.zero_add] at hreads
  constructor
  · rintro ⟨hlen', hall⟩
    refine List.forall₂_of_length_eq_of_get (by simp [hlen, hlen']) fun i hi hi' => ?_
    have hi : i < sizes.length := by simpa using hi
    have hp : i < pattern.length := hlen' ▸ hi
    have hread := hreads i _ _ (List.getElem?_eq_getElem hp) (List.getElem?_eq_getElem hi')
    have hallow := hall i _ _ (List.getElem?_eq_getElem hp) (List.getElem?_eq_getElem hi)
    simpa using (allows_iff hread).1 hallow
  · intro hrefines
    have hlen' : sizes.length = dims.length := by simpa using hrefines.length_eq
    refine ⟨hlen'.trans hlen, fun i v n hv hn => ?_⟩
    have hi : i < dims.length := hlen' ▸ (List.getElem?_eq_some_iff.1 hn).1
    have hd := List.getElem?_eq_getElem hi
    exact (allows_iff (hreads i v _ hv hd)).2 (forall₂_getElem? hrefines (by simp [hn]) hd)

theorem map_known_inj {ms : List Nat} : ns.map Dim.known = ms.map .known ↔ ns = ms :=
  (List.map_injective_iff.2 fun _ _ => Dim.known.inj).eq_iff

theorem refines_insertIdx {gs : List Nat} (hi : i ≤ gs.length) :
    List.Forall₂ Dim.Refines (sizes.map .known) ((gs.map .known).insertIdx i .unknown) ↔
      ∃ n, sizes = gs.insertIdx i n := by
  constructor
  · intro h
    have hlt : i < sizes.length := by
      have hlen := h.length_eq
      rw [List.length_map, List.length_insertIdx_of_le_length (by simpa using hi),
        List.length_map] at hlen
      omega
    have hrest := forall₂_eraseIdx h i
    rw [List.eraseIdx_insertIdx_self] at hrest
    have hrest := Dim.eq_of_refines_known hrest
    rw [List.eraseIdx_map, map_known_inj] at hrest
    exact ⟨sizes[i], by rw [← hrest, List.insertIdx_eraseIdx_getElem hlt]⟩
  · rintro ⟨n, rfl⟩
    rw [List.map_insertIdx]
    exact forall₂_insertIdx (List.forall₂_same.2 fun d _ => .refl d) (Dim.refines_unknown _) i

theorem insertIdx_inj {gs : List Nat} {m : Nat} (hi : i ≤ gs.length) :
    gs.insertIdx i n = gs.insertIdx i m ↔ n = m := by
  refine ⟨fun h => ?_, fun h => h ▸ rfl⟩
  have hlt : ∀ n, i < (gs.insertIdx i n).length := fun n => by
    rw [List.length_insertIdx_of_le_length hi]
    omega
  rw [← List.getElem_insertIdx_self (hlt n), ← List.getElem_insertIdx_self (hlt m)]
  simp only [h]

/-! ### Reshapes of known dims -/

/-- Sizes that match a pattern and make as many elements as the input has. -/
def Fits (input : Shape) (pattern : List Int) (copyZeros : Bool) (sizes : List Nat) : Prop :=
  Matches input pattern copyZeros sizes ∧ sizes.prod = input.volume

/-- A pattern without a `-1` is right or wrong by its count. -/
theorem reshape_given {p : Nat}
    (hd : patternDims input pattern copyZeros 0 none pattern = .ok (dims, none))
    (hn : input.count = .ok (some n)) (hp : Dim.count 1 dims = .ok (some p)) :
    input.reshape pattern copyZeros =
      if n = p then .ok ⟨dims⟩ else .error (.misfit (.countDiffers input n p)) := by
  simp only [reshape, hd, hn, hp, bind, Except.bind]
  rfl

theorem reshape_inferred {p : Nat}
    (hd : patternDims input pattern copyZeros 0 none pattern = .ok (dims, some axis))
    (hn : input.count = .ok (some n)) (hp : Dim.count 1 (dims.eraseIdx axis) = .ok (some p)) :
    input.reshape pattern copyZeros =
      if p = 0 ∨ n % p ≠ 0 then .error (.misfit (.indivisible input n pattern))
      else .ok ⟨dims.set axis (.known (n / p))⟩ := by
  simp only [reshape, hd, hn, hp, bind, Except.bind]
  rfl

theorem count_map_known (h : Size.product ns = .ok n) :
    Dim.count 1 (ns.map .known) = .ok (some n) := by
  rw [Dim.count_known, show ns.foldlM Size.mul 1 = .ok n from h]
  rfl

/-- The pattern can be read, one list of sizes fits and no other, and the reshape answers it. -/
def FitsOne (input : Shape) (pattern : List Int) (copyZeros : Bool) : Prop :=
  Readable input pattern copyZeros ∧ ∃ sizes,
    input.reshape pattern copyZeros = .ok (ofSizes sizes) ∧
      ∀ other, Fits input pattern copyZeros other ↔ other = sizes

/-- The reshape fails, and no list of sizes is the only one that fits a pattern that can be read. -/
def FitsNotOne (input : Shape) (pattern : List Int) (copyZeros : Bool) : Prop :=
  (∃ cause, input.reshape pattern copyZeros = .error (.misfit cause)) ∧
    (Readable input pattern copyZeros → ∀ sizes, Fits input pattern copyZeros sizes →
      ∃ other, Fits input pattern copyZeros other ∧ other ≠ sizes)

section Known

variable {gs : List Nat} {p : Nat} (hn : Size.product ns = .ok n) (hp : Size.product gs = .ok p)

include hn hp

theorem fits_of_given
    (hd : patternDims (ofSizes ns) pattern copyZeros 0 none pattern =
      .ok (gs.map .known, none)) :
    FitsOne (ofSizes ns) pattern copyZeros ∨ FitsNotOne (ofSizes ns) pattern copyZeros := by
  have hvolume : (ofSizes ns).volume = n := (volume_known rfl).trans (Size.prod_of_product hn)
  have hmatches : ∀ sizes, Matches (ofSizes ns) pattern copyZeros sizes ↔ sizes = gs := fun sizes =>
    (matches_iff hd).trans ⟨fun h => map_known_inj.1 (Dim.eq_of_refines_known h),
      fun h => h ▸ List.forall₂_same.2 fun d _ => .refl d⟩
  simp only [FitsOne, FitsNotOne, Fits, hmatches, hvolume,
    reshape_given hd (count_map_known hn) (count_map_known hp)]
  split
  · next he =>
    refine .inl ⟨readable_iff.2 ⟨_, _, hd⟩, gs, rfl, fun other => and_iff_left_of_imp ?_⟩
    rintro rfl
    exact (Size.prod_of_product hp).trans he.symm
  · next hne =>
    refine .inr ⟨⟨_, rfl⟩, fun _ => ?_⟩
    rintro sizes ⟨rfl, he⟩
    exact absurd (he.symm.trans (Size.prod_of_product hp)) hne

theorem fits_of_inferred (hi : i ≤ gs.length)
    (hd : patternDims (ofSizes ns) pattern copyZeros 0 none pattern =
      .ok ((gs.map .known).insertIdx i .unknown, some i)) :
    FitsOne (ofSizes ns) pattern copyZeros ∨ FitsNotOne (ofSizes ns) pattern copyZeros := by
  have hvolume : (ofSizes ns).volume = n := (volume_known rfl).trans (Size.prod_of_product hn)
  have hcount : Dim.count 1 (((gs.map Dim.known).insertIdx i .unknown).eraseIdx i) =
      .ok (some p) := by rw [List.eraseIdx_insertIdx_self, count_map_known hp]
  have hset : ∀ m, ((gs.map Dim.known).insertIdx i .unknown).set i (.known m) =
      (gs.insertIdx i m).map .known := by
    intro m
    rw [List.map_insertIdx, ← List.insertIdx_eraseIdx_self, List.eraseIdx_insertIdx_self]
    rw [List.length_insertIdx_of_le_length (by simpa using hi), List.length_map]
    omega
  have hprod : ∀ m, (gs.insertIdx i m).prod = m * p := fun m => by
    rw [(List.perm_insertIdx m gs hi).prod_nat, List.prod_cons, Size.prod_of_product hp]
  simp only [FitsOne, FitsNotOne, Fits, matches_iff hd, refines_insertIdx hi, hvolume,
    reshape_inferred hd (count_map_known hn) hcount, hset]
  split
  · next hbad =>
    refine .inr ⟨⟨_, rfl⟩, fun _ => ?_⟩
    rintro _ ⟨⟨m, rfl⟩, he⟩
    rw [hprod] at he
    -- where the given sizes make nothing, the inferred one is free
    obtain rfl : p = 0 := hbad.resolve_right fun hmod => hmod (by rw [← he, Nat.mul_mod_left])
    refine ⟨_, ⟨⟨m + 1, rfl⟩, by rw [hprod, ← he, Nat.mul_zero, Nat.mul_zero]⟩, ?_⟩
    rw [Ne, insertIdx_inj hi]
    omega
  · next hok =>
    rw [not_or, not_not] at hok
    refine .inl ⟨readable_iff.2 ⟨_, _, hd⟩, gs.insertIdx i (n / p), rfl, fun other => ⟨?_, ?_⟩⟩
    · rintro ⟨⟨m, rfl⟩, he⟩
      rw [hprod] at he
      rw [← he, Nat.mul_div_cancel m (Nat.pos_of_ne_zero hok.1)]
    · rintro rfl
      exact ⟨⟨_, rfl⟩, by rw [hprod, Nat.div_mul_cancel (Nat.dvd_of_mod_eq_zero hok.2)]⟩

end Known

theorem fits_or (hn : Size.product ns = .ok n) {p : Nat}
    (hp : Size.product (givenSizes ns copyZeros 0 pattern) = .ok p) :
    FitsOne (ofSizes ns) pattern copyZeros ∨ FitsNotOne (ofSizes ns) pattern copyZeros := by
  cases hd : patternDims (ofSizes ns) pattern copyZeros 0 none pattern with
  | error e =>
    obtain ⟨⟨cause, rfl⟩, -⟩ : (∃ cause, e = .misfit cause) ∧
        patternDims (ofSizes ns) pattern copyZeros 0 none pattern = .error e :=
      patternDims_eq_error rfl hd
    refine .inr ⟨⟨cause, by simp only [reshape, hd, bind, Except.bind]⟩, fun hread => ?_⟩
    obtain ⟨dims, found, hok⟩ := readable_iff.1 hread
    cases hd.symm.trans hok
  | ok r =>
    obtain ⟨dims, found⟩ := r
    obtain ⟨rfl, rfl⟩ | ⟨-, i, rfl, hi, rfl⟩ := patternDims_ofSizes hd
    · exact fits_of_given hn hp hd
    · exact fits_of_inferred hn hp hi (by rwa [Nat.zero_add] at hd)

/-! ### Reshapes of dims that are not known yet -/

theorem count_eq_error_of_refines {as as' : List Dim} {e : Error}
    (h : List.Forall₂ Dim.Refines as' as) (he : Dim.count n as = .error e) :
    Dim.count n as' = .error e := by
  induction h generalizing n with
  | nil => cases he
  | @cons a' a as' as ha _ ih =>
    cases a with
    | unknown => cases he
    | known m =>
      obtain rfl := Dim.refines_known.1 ha
      rw [Dim.count, Result.bind_eq_error] at he ⊢
      obtain hmul | ⟨k, hk, he⟩ := he
      · exact .inl hmul
      · exact .inr ⟨k, hk, ih he⟩

/-- What a reshape of dims that are not all known can fail with: the pattern, or a product. -/
theorem reshape_error_cases {e : Error} (hk : ∀ n, input.count ≠ .ok (some n))
    (h : input.reshape pattern copyZeros = .error e) :
    patternDims input pattern copyZeros 0 none pattern = .error e ∨ ∃ dims found,
      patternDims input pattern copyZeros 0 none pattern = .ok (dims, found) ∧
        (input.count = .error e ∨ Dim.count 1 (found.elim dims dims.eraseIdx) = .error e) := by
  rw [reshape, Result.bind_eq_error] at h
  obtain hd | ⟨⟨dims, found⟩, hd, h⟩ := h
  · exact .inl hd
  refine .inr ⟨dims, found, hd, ?_⟩
  obtain hc | ⟨_ | n, hc, h⟩ := Result.bind_eq_error.1 h
  · exact .inl hc
  · obtain hp | ⟨product, hp, h⟩ := Result.bind_eq_error.1 h
    · cases found <;> exact .inr hp
    · cases found <;> cases h
  · exact absurd hc (hk n)

theorem reshape_of_overflow
    (hd : patternDims input pattern copyZeros 0 none pattern = .ok (dims, found))
    (h : input.count = .error (.fault .overflow) ∨
      Dim.count 1 (found.elim dims dims.eraseIdx) = .error (.fault .overflow)) :
    input.reshape pattern copyZeros = .error (.fault .overflow) := by
  rw [reshape, Result.bind_eq_error]
  refine .inr ⟨(dims, found), hd, Result.bind_eq_error.2 ?_⟩
  cases hc : input.count with
  | error e => exact .inl (by rw [Dim.count_onlyOverflow _ _ e hc])
  | ok c =>
    have hp := h.resolve_left (by rw [hc]; nofun)
    refine .inr ⟨c, rfl, Result.bind_eq_error.2 (.inl ?_)⟩
    cases found <;> exact hp

/-- What is wrong before all dims are known is wrong in the same way later. -/
theorem reshape_eq_error {e : Error} (hin : input'.Refines input)
    (h : input.reshape pattern copyZeros = .error e) :
    input'.reshape pattern copyZeros = .error e := by
  have hrank : input'.rank = input.rank := hin.length_eq
  by_cases hk : ∃ n, input.count = .ok (some n)
  · obtain ⟨n, hn⟩ := hk
    rwa [hin.eq_of_isStatic (count_eq_some hn).1]
  rw [not_exists] at hk
  obtain hd | ⟨dims, found, hd, hcount⟩ := reshape_error_cases hk h
  · exact Result.bind_eq_error.2 (.inl (patternDims_eq_error hrank hd).2)
  · obtain rfl : e = .fault .overflow :=
      hcount.elim (Dim.count_onlyOverflow _ _ e) (Dim.count_onlyOverflow _ _ e)
    have hread := readable_iff.2 ⟨dims, found, hd⟩
    have hread' : Readable input' pattern copyZeros :=
      ⟨hread.inferred, hread.valid, fun hc axis hz => hrank ▸ hread.copies hc axis hz⟩
    obtain ⟨dims', found', hd'⟩ := readable_iff.1 hread'
    obtain ⟨rfl, hrefines⟩ := patternDims_refines hin hd hd'
    refine reshape_of_overflow hd' (hcount.imp (count_eq_error_of_refines hin) fun hp =>
      count_eq_error_of_refines ?_ hp)
    cases found' with
    | none => exact hrefines
    | some axis => exact forall₂_eraseIdx hrefines axis

/-- Of an input with known dims, where the two products that are taken fit a word, a reshape answers
a shape if and only if the pattern can be read and the shape is the only one that matches it and has
as many elements; otherwise it fails. Of any other input it fails only where it fails for all that
the dims can turn out to be, and what it knows of its answer they share. -/
theorem reshape_fits (input : Shape) (pattern : List Int) (copyZeros : Bool) :
    (∀ ns n p, input.sizes? = some ns → Size.product ns = .ok n →
        Size.product (givenSizes ns copyZeros 0 pattern) = .ok p →
      (∀ s, input.reshape pattern copyZeros = .ok s ↔ Readable input pattern copyZeros ∧
        ∃ sizes, s = ofSizes sizes ∧ Fits input pattern copyZeros sizes ∧
          ∀ other, Fits input pattern copyZeros other → other = sizes) ∧
      ((¬ ∃ s, input.reshape pattern copyZeros = .ok s) →
        ∃ cause, input.reshape pattern copyZeros = .error (.misfit cause))) ∧
    ∀ sizes, (ofSizes sizes).Refines input →
      (∀ e, input.reshape pattern copyZeros = .error e →
        (ofSizes sizes).reshape pattern copyZeros = .error e) ∧
      ∀ s s', input.reshape pattern copyZeros = .ok s →
        (ofSizes sizes).reshape pattern copyZeros = .ok s' → s'.Refines s := by
  refine ⟨fun ns n p hs hn hp => ?_, fun sizes hin =>
    ⟨fun e => reshape_eq_error hin, fun s s' => reshape_refines hin⟩⟩
  obtain rfl : input = ofSizes ns := congrArg Shape.mk (dims_of_sizes? hs)
  obtain ⟨hread, sizes, hok, hone⟩ | ⟨⟨cause, herr⟩, hnot⟩ := fits_or hn hp
  · refine ⟨fun s => ⟨fun h => ?_, ?_⟩, fun hno => absurd ⟨_, hok⟩ hno⟩
    · obtain rfl := Except.ok.inj (hok.symm.trans h)
      exact ⟨hread, sizes, rfl, (hone sizes).2 rfl, fun other => (hone other).1⟩
    · rintro ⟨-, t, rfl, hfit, -⟩
      rw [(hone t).1 hfit, hok]
  · refine ⟨fun s => ⟨fun h => (nomatch herr.symm.trans h), ?_⟩, fun _ => ⟨cause, herr⟩⟩
    rintro ⟨hread, t, -, hfit, hall⟩
    obtain ⟨other, hother, hne⟩ := hnot hread t hfit
    exact absurd (hall other hother) hne

/-- Two planes whose first dim is copied and whose others become one, before and after that dim is
known, and a pattern that cannot be read. -/
theorem reshape_fits_planes :
    (Readable (ofSizes [2, 3, 4]) [0, -1] true ∧
      ∀ other, Fits (ofSizes [2, 3, 4]) [0, -1] true other → other = [2, 12]) ∧
    (ofSizes [2, 12]).Refines ⟨[.unknown, .unknown]⟩ ∧
    (ofSizes [2, 3, 4]).reshape [-1, -1] true = .error (.misfit (.severalInferred [-1, -1])) := by
  have hrefines : (ofSizes [2, 3, 4]).Refines ⟨[.unknown, .known 3, .known 4]⟩ :=
    .cons (Dim.refines_unknown _) (.cons (.refl _) (.cons (.refl _) .nil))
  refine ⟨?_, ?_, ?_⟩
  · have hstatic := (reshape_fits (ofSizes [2, 3, 4]) [0, -1] true).1 _ _ _ rfl rfl rfl
    obtain ⟨hread, sizes, hs, -, hone⟩ := (hstatic.1 (ofSizes [2, 12])).1 rfl
    obtain rfl : [2, 12] = sizes := map_known_inj.1 (congrArg dims hs)
    exact ⟨hread, hone⟩
  · exact ((reshape_fits ⟨[.unknown, .known 3, .known 4]⟩ [0, -1] true).2 _ hrefines).2 _ _ rfl rfl
  · exact ((reshape_fits ⟨[.unknown, .known 3, .known 4]⟩ [-1, -1] true).2 _ hrefines).1 _ rfl

end BufferFusion.Shape
