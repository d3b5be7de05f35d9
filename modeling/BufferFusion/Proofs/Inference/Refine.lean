import BufferFusion.Proofs.Inference.Yields
import BufferFusion.Proofs.Layout.Dims

/-!
# Refinement

Inference on more of the shapes agrees with inference on less: a dim that was known stays, one that
was not may become known. Ranks, element types and formats are the same.
-/
namespace BufferFusion

/-- `d'` says what `d` says, or more. -/
def Dim.Refines (d' d : Dim) : Prop := d = .unknown ∨ d' = d

theorem Dim.Refines.refl (d : Dim) : d.Refines d := .inr rfl

theorem Dim.refines_unknown (d : Dim) : d.Refines .unknown := .inl rfl

theorem Dim.refines_known {d : Dim} {n : Nat} : d.Refines (.known n) ↔ d = .known n := by
  simp [Refines]

/-- Dim by dim. -/
def Shape.Refines (s' s : Shape) : Prop := List.Forall₂ Dim.Refines s'.dims s.dims

structure Layout.Refines (l' l : Layout) : Prop where
  shape : l'.shape.Refines l.shape
  element : l'.element = l.element
  format : l'.format = l.format

section Lists

variable {α : Type} {R : α → α → Prop} {xs ys : List α} {x y : α}

theorem forall₂_set (h : List.Forall₂ R xs ys) (hxy : R x y) (i : Nat) :
    List.Forall₂ R (xs.set i x) (ys.set i y) := by
  induction h generalizing i with
  | nil => exact .nil
  | cons h₁ h₂ ih =>
    cases i with
    | zero => exact .cons hxy h₂
    | succ i => exact .cons h₁ (ih i)

theorem forall₂_eraseIdx (h : List.Forall₂ R xs ys) (i : Nat) :
    List.Forall₂ R (xs.eraseIdx i) (ys.eraseIdx i) := by
  induction h generalizing i with
  | nil => exact .nil
  | cons h₁ h₂ ih =>
    cases i with
    | zero => exact h₂
    | succ i => exact .cons h₁ (ih i)

theorem forall₂_insertIdx (h : List.Forall₂ R xs ys) (hxy : R x y) (i : Nat) :
    List.Forall₂ R (xs.insertIdx i x) (ys.insertIdx i y) := by
  induction h generalizing i with
  | nil => cases i <;> first | exact .cons hxy .nil | exact .nil
  | cons h₁ h₂ ih =>
    cases i with
    | zero => exact .cons hxy (.cons h₁ h₂)
    | succ i => exact .cons h₁ (ih i)

theorem forall₂_getElem? {β : Type} {R : α → β → Prop} {ys : List β} {y : β}
    (h : List.Forall₂ R xs ys) {i : Nat} (hx : xs[i]? = some x) (hy : ys[i]? = some y) :
    R x y := by
  induction h generalizing i with
  | nil => cases hx
  | cons h₁ _ ih =>
    cases i with
    | zero =>
      obtain rfl := Option.some.inj hx
      obtain rfl := Option.some.inj hy
      exact h₁
    | succ i => exact ih hx hy

theorem forall₂_dropLast (h : List.Forall₂ R xs ys) :
    List.Forall₂ R xs.dropLast ys.dropLast := by
  rw [List.dropLast_eq_take, List.dropLast_eq_take, h.length_eq]
  exact List.forall₂_take _ h

end Lists

namespace Dim

variable {a a' b b' d d' : Dim} {as as' : List Dim}

theorem Refines.plus (ha : a'.Refines a) (hb : b'.Refines b) : (a'.plus b').Refines (a.plus b) := by
  rcases ha with rfl | rfl
  · simp [refines_unknown]
  · rcases hb with rfl | rfl
    · simp [refines_unknown]
    · exact .refl _

theorem Refines.merge (ha : a'.Refines a) (hb : b'.Refines b) (hd : a.merge b = some d)
    (hd' : a'.merge b' = some d') : d'.Refines d := by
  cases d with
  | unknown => exact refines_unknown _
  | known n =>
    rw [refines_known]
    cases a with
    | known i =>
      rw [refines_known] at ha
      subst ha
      cases b with
      | known j =>
        rw [refines_known] at hb
        subst hb
        exact Option.some.inj (hd'.symm.trans hd)
      | unknown =>
        obtain rfl := known.inj (Option.some.inj hd)
        cases b' with
        | unknown => exact (Option.some.inj hd').symm
        | known j =>
          simp only [merge] at hd'
          split at hd'
          · exact (Option.some.inj hd').symm
          · cases hd'
    | unknown =>
      cases b with
      | unknown => cases Option.some.inj hd
      | known j =>
        obtain rfl := known.inj (Option.some.inj hd)
        rw [refines_known] at hb
        subst hb
        cases a' with
        | unknown => exact (Option.some.inj hd').symm
        | known i =>
          simp only [merge] at hd'
          split at hd'
          · next he => rw [← he]; exact (Option.some.inj hd').symm
          · cases hd'

/-- Where the count is known, every dim is. -/
theorem known_of_count {n m : Nat} (h : count n as = .ok (some m)) :
    ∃ ns : List Nat, as = ns.map known ∧ ns.foldlM Size.mul n = .ok m := by
  induction as generalizing n with
  | nil =>
    obtain rfl := Option.some.inj (Except.ok.inj h)
    exact ⟨[], rfl, rfl⟩
  | cons a as ih =>
    cases a with
    | unknown => cases (Except.ok.inj h)
    | known k =>
      obtain ⟨p, hp, h⟩ := Result.bind_eq_ok.1 h
      obtain ⟨ns, rfl, hns⟩ := ih h
      exact ⟨k :: ns, rfl, by rw [List.foldlM_cons, hp]; exact hns⟩

theorem eq_of_refines_known {ns : List Nat} (h : List.Forall₂ Refines as' (ns.map known)) :
    as' = ns.map known := by
  induction ns generalizing as' with
  | nil => cases h; rfl
  | cons n ns ih =>
    obtain _ | ⟨h₁, h₂⟩ := h
    rw [refines_known.1 h₁, ih h₂, List.map_cons]

end Dim

namespace Infer

variable {axis i : Nat} {as as' bs bs' out out' : List Dim}

theorem joinDims_cons {slot : Nat} {shape first : Shape} {a b : Dim} :
    joinDims axis slot shape first i (a :: as) (b :: bs) = .ok out ↔
      ∃ d rest, (if i = axis then a.add b = .ok d else a.merge b = some d) ∧
        joinDims axis slot shape first (i + 1) as bs = .ok rest ∧ out = d :: rest := by
  simp only [joinDims]
  by_cases hi : i = axis
  · simp only [if_pos hi, Result.bind_eq_ok, pure, Except.pure, Except.ok.injEq]
    constructor
    · rintro ⟨d, hd, rest, hr, rfl⟩
      exact ⟨d, rest, hd, hr, rfl⟩
    · rintro ⟨d, rest, hd, hr, rfl⟩
      exact ⟨d, hd, rest, hr, rfl⟩
  · simp only [if_neg hi]
    cases a.merge b with
    | none => simp [misfit, bind, Except.bind]
    | some d =>
      simp only [Result.bind_eq_ok, Except.ok.injEq, exists_eq_left', pure, Except.pure,
        Option.some.injEq]
      constructor
      · rintro ⟨rest, hr, rfl⟩
        exact ⟨d, rest, rfl, hr, rfl⟩
      · rintro ⟨d, rest, rfl, hr, rfl⟩
        exact ⟨rest, hr, rfl⟩

theorem joinDims_refines {slot slot' : Nat} {s s' f f' : Shape}
    (ha : List.Forall₂ Dim.Refines as' as) (hb : List.Forall₂ Dim.Refines bs' bs)
    (h : joinDims axis slot s f i as bs = .ok out)
    (h' : joinDims axis slot' s' f' i as' bs' = .ok out') :
    List.Forall₂ Dim.Refines out' out := by
  induction ha generalizing i bs bs' out out' with
  | nil =>
    obtain rfl : [] = out := by simpa [joinDims] using h
    obtain rfl : [] = out' := by simpa [joinDims] using h'
    exact .nil
  | cons hx _ ih =>
    cases hb with
    | nil =>
      obtain rfl : [] = out := by simpa [joinDims] using h
      obtain rfl : [] = out' := by simpa [joinDims] using h'
      exact .nil
    | cons hy hbs =>
      obtain ⟨d, rest, hd, hr, rfl⟩ := joinDims_cons.1 h
      obtain ⟨d', rest', hd', hr', rfl⟩ := joinDims_cons.1 h'
      refine .cons ?_ (ih hbs hr hr')
      split at hd
      · next hi =>
        rw [if_pos hi] at hd'
        rw [Dim.add_eq_ok hd, Dim.add_eq_ok hd']
        exact hx.plus hy
      · next hi =>
        rw [if_neg hi] at hd'
        exact hx.merge hy hd hd'

theorem Joined.refines {first first' : Layout} {ls ls' : List Layout}
    (hls : List.Forall₂ Layout.Refines ls' ls) (h : Joined axis first as ls out)
    (h' : Joined axis first' as' ls' out') (ha : List.Forall₂ Dim.Refines as' as) :
    List.Forall₂ Dim.Refines out' out := by
  induction h generalizing as' ls' with
  | nil =>
    cases hls
    cases h'
    exact ha
  | cons _ _ _ hj _ ih =>
    obtain _ | ⟨hl, hls⟩ := hls
    obtain _ | ⟨_, _, _, hj', hr'⟩ := h'
    exact ih hls hr' (joinDims_refines ha hl.shape hj hj')

end Infer

namespace Shape

variable {input input' s s' : Shape} {pattern : List Int} {copyZeros : Bool}

/-- The dims of a pattern: as many as it has values, with an unknown one in the place of a `-1`. -/
theorem patternDims_spec {vs : List Int} {axis : Nat} {before found : Option Nat}
    {dims : List Dim} (h : patternDims input pattern copyZeros axis before vs = .ok (dims, found)) :
    dims.length = vs.length ∧
      (found = before ∨ ∃ i, found = some (axis + i) ∧ dims[i]? = some .unknown) := by
  induction vs generalizing axis before dims found with
  | nil =>
    obtain ⟨rfl, rfl⟩ := Prod.mk.inj (Except.ok.inj h)
    exact ⟨rfl, .inl rfl⟩
  | cons v vs ih =>
    have hcons : ∀ {d : Dim} {b : Option Nat},
        (patternDims input pattern copyZeros (axis + 1) b vs >>=
          fun r => pure (d :: r.1, r.2)) = Except.ok (dims, found) →
        ∃ rest, dims = d :: rest ∧ rest.length = vs.length ∧
            (found = b ∨ ∃ i, found = some (axis + (i + 1)) ∧ rest[i]? = some .unknown) := by
      intro d b h
      obtain ⟨⟨rest, f⟩, hr, h⟩ := Result.bind_eq_ok.1 h
      obtain ⟨rfl, rfl⟩ := Prod.mk.inj (Except.ok.inj h)
      obtain ⟨h₁, h₂⟩ := ih hr
      refine ⟨rest, rfl, h₁, h₂.imp_right ?_⟩
      rintro ⟨i, rfl, hi⟩
      exact ⟨i, by rw [Nat.add_assoc, Nat.add_comm 1 i], hi⟩
    have hlift : ∀ {d : Dim} {rest : List Dim}, (found = before ∨
        ∃ i, found = some (axis + (i + 1)) ∧ rest[i]? = some Dim.unknown) →
          found = before ∨ ∃ i, found = some (axis + i) ∧ (d :: rest)[i]? = some Dim.unknown := by
      rintro d rest (rfl | ⟨i, rfl, hi⟩)
      · exact .inl rfl
      · exact .inr ⟨i + 1, rfl, hi⟩
    simp only [patternDims] at h
    split at h
    · split at h
      · cases h
      · obtain ⟨rest, rfl, h₁, rfl | ⟨i, rfl, hi⟩⟩ := hcons h
        · exact ⟨by simp [h₁], .inr ⟨0, rfl, rfl⟩⟩
        · exact ⟨by simp [h₁], .inr ⟨i + 1, rfl, hi⟩⟩
    · split at h
      · split at h
        · cases h
        · obtain ⟨rest, rfl, h₁, h₂⟩ := hcons h
          exact ⟨by simp [h₁], hlift h₂⟩
      · split at h
        · cases h
        · obtain ⟨rest, rfl, h₁, h₂⟩ := hcons h
          exact ⟨by simp [h₁], hlift h₂⟩

theorem patternDims_refines (hin : input'.Refines input) {vs : List Int} {axis : Nat}
    {before found found' : Option Nat} {dims dims' : List Dim}
    (h : patternDims input pattern copyZeros axis before vs = .ok (dims, found))
    (h' : patternDims input' pattern copyZeros axis before vs = .ok (dims', found')) :
    found' = found ∧ List.Forall₂ Dim.Refines dims' dims := by
  induction vs generalizing axis before dims found dims' found' with
  | nil =>
    obtain ⟨rfl, rfl⟩ := Prod.mk.inj (Except.ok.inj h)
    obtain ⟨rfl, rfl⟩ := Prod.mk.inj (Except.ok.inj h')
    exact ⟨rfl, .nil⟩
  | cons v vs ih =>
    have hcons : ∀ {d d' : Dim} {b : Option Nat}, d'.Refines d →
        (patternDims input pattern copyZeros (axis + 1) b vs >>=
          fun r => pure (d :: r.1, r.2)) = Except.ok (dims, found) →
        (patternDims input' pattern copyZeros (axis + 1) b vs >>=
          fun r => pure (d' :: r.1, r.2)) = Except.ok (dims', found') →
        found' = found ∧ List.Forall₂ Dim.Refines dims' dims := by
      intro d d' b hd h h'
      obtain ⟨⟨rest, f⟩, hr, h⟩ := Result.bind_eq_ok.1 h
      obtain ⟨rfl, rfl⟩ := Prod.mk.inj (Except.ok.inj h)
      obtain ⟨⟨rest', f'⟩, hr', h'⟩ := Result.bind_eq_ok.1 h'
      obtain ⟨rfl, rfl⟩ := Prod.mk.inj (Except.ok.inj h')
      obtain ⟨hf, hdims⟩ := ih hr hr'
      exact ⟨hf, .cons hd hdims⟩
    simp only [patternDims] at h h'
    split at h
    · next hv =>
      rw [if_pos hv] at h'
      split at h
      · cases h
      · next hb =>
        rw [if_neg hb] at h'
        exact hcons (.refl _) h h'
    · next hv =>
      rw [if_neg hv] at h'
      split at h
      · next hz =>
        rw [if_pos hz] at h'
        split at h
        · cases h
        next d hd =>
        split at h'
        · cases h'
        next d' hd' => exact hcons (forall₂_getElem? hin hd' hd) h h'
      · next hz =>
        rw [if_neg hz] at h'
        split at h
        · cases h
        · next hneg =>
          rw [if_neg hneg] at h'
          exact hcons (.refl _) h h'

/-- How a reshape gets its shape: the `-1` is settled by the counts, or the counts agree, or one of
them is not known yet. -/
theorem reshape_cases (h : input.reshape pattern copyZeros = .ok s) : ∃ dims found,
    patternDims input pattern copyZeros 0 none pattern = .ok (dims, found) ∧
      ((∃ axis n p, found = some axis ∧ input.count = .ok (some n) ∧
          Dim.count 1 (dims.eraseIdx axis) = .ok (some p) ∧ p ≠ 0 ∧ n % p = 0 ∧
          s = ⟨dims.set axis (.known (n / p))⟩) ∨
        (∃ n, found = none ∧ input.count = .ok (some n) ∧ Dim.count 1 dims = .ok (some n) ∧
          s = ⟨dims⟩) ∨
        (input.count = .ok none ∨ Dim.count 1 (found.elim dims dims.eraseIdx) = .ok none) ∧
          s = ⟨dims⟩) := by
  obtain ⟨⟨dims, found⟩, hd, h⟩ := Result.bind_eq_ok.1 h
  refine ⟨dims, found, hd, ?_⟩
  obtain ⟨count, hc, h⟩ := Result.bind_eq_ok.1 h
  obtain ⟨product, hp, h⟩ := Result.bind_eq_ok.1 h
  cases found with
  | none =>
    cases count with
    | none => exact .inr (.inr ⟨.inl hc, (Except.ok.inj h).symm⟩)
    | some n =>
      cases product with
      | none => exact .inr (.inr ⟨.inr hp, (Except.ok.inj h).symm⟩)
      | some p =>
        simp only at h
        split at h
        · next he =>
          subst he
          exact .inr (.inl ⟨n, rfl, hc, hp, (Except.ok.inj h).symm⟩)
        · cases h
  | some axis =>
    cases count with
    | none => exact .inr (.inr ⟨.inl hc, (Except.ok.inj h).symm⟩)
    | some n =>
      cases product with
      | none => exact .inr (.inr ⟨.inr hp, (Except.ok.inj h).symm⟩)
      | some p =>
        simp only at h
        split at h
        · cases h
        · next hne =>
          rw [not_or, not_not] at hne
          exact .inl ⟨axis, n, p, rfl, hc, hp, hne.1, hne.2, (Except.ok.inj h).symm⟩

theorem reshape_refines (hin : input'.Refines input) (h : input.reshape pattern copyZeros = .ok s)
    (h' : input'.reshape pattern copyZeros = .ok s') : s'.Refines s := by
  by_cases hk : ∃ n, input.count = .ok (some n)
  · -- all dims are known, and then both reshapes are the same
    obtain ⟨n, hn⟩ := hk
    obtain ⟨ns, hns, -⟩ := Dim.known_of_count hn
    obtain rfl : input' = input := by
      obtain ⟨ds⟩ := input'
      obtain ⟨es⟩ := input
      simp only at hns
      subst hns
      exact congrArg Shape.mk (Dim.eq_of_refines_known hin)
    obtain rfl := Except.ok.inj (h.symm.trans h')
    exact List.forall₂_same.2 fun d _ => .refl d
  · obtain ⟨dims, found, hd, ⟨_, n, _, _, hc, _⟩ | ⟨n, _, hc, _⟩ | ⟨-, rfl⟩⟩ := reshape_cases h
    · exact absurd ⟨n, hc⟩ hk
    · exact absurd ⟨n, hc⟩ hk
    obtain ⟨dims', found', hd', hcases⟩ := reshape_cases h'
    obtain ⟨rfl, hdims⟩ := patternDims_refines hin hd hd'
    obtain ⟨axis, n, p, rfl, -, -, -, -, rfl⟩ | ⟨n, rfl, -, -, rfl⟩ | ⟨-, rfl⟩ := hcases
    · obtain ⟨-, hf | ⟨i, hf, hi⟩⟩ := patternDims_spec hd
      · cases hf
      obtain rfl : axis = i := by simpa using Option.some.inj hf
      have := forall₂_set hdims (Dim.refines_unknown (.known (n / p))) axis
      rwa [← (List.getElem?_eq_some_iff.1 hi).2, List.set_getElem_self] at this
    · exact hdims
    · exact hdims

/-- A pattern that is known asks for a shape of its own length. -/
theorem rank_reshape (h : input.reshape pattern copyZeros = .ok s) : s.rank = pattern.length := by
  obtain ⟨dims, found, hd, hcases⟩ := reshape_cases h
  have hlen := (patternDims_spec hd).1
  obtain ⟨axis, n, p, -, -, -, -, -, rfl⟩ | ⟨n, -, -, -, rfl⟩ | ⟨-, rfl⟩ := hcases
  · simpa [rank] using hlen
  · exact hlen
  · exact hlen

theorem widen_refines (h : s'.Refines s) (n : Nat) : (widen n s').Refines (widen n s) := by
  induction n generalizing s s' with
  | zero => exact h
  | succ n ih =>
    have hrank : s'.rank = s.rank := h.length_eq
    simp only [widen, hrank]
    exact ih (forall₂_insertIdx h (.refl _) _)

theorem narrow_eq_ok {format : Format} {n : Nat} {out : Shape}
    (h : narrow format (n + 1) s = .ok out) : s.dims[2]? = some (.known 1) ∧
      narrow format n (s.remove 2) = .ok out := by
  simp only [narrow] at h
  split at h
  · next hd => exact ⟨hd, h⟩
  · cases h
  · cases h

theorem narrow_refines {format : Format} {n : Nat} {out out' : Shape} (h : s'.Refines s)
    (hn : narrow format n s = .ok out) (hn' : narrow format n s' = .ok out') :
    out'.Refines out := by
  induction n generalizing s s' with
  | zero =>
    obtain rfl := Except.ok.inj hn
    obtain rfl := Except.ok.inj hn'
    exact h
  | succ n ih =>
    exact ih (forall₂_eraseIdx h 2) (narrow_eq_ok hn).2 (narrow_eq_ok hn').2

theorem fit_refines {format : Format} {out out' : Shape} (h : s'.Refines s)
    (hf : s.fit format = .ok out) (hf' : s'.fit format = .ok out') : out'.Refines out := by
  have hrank : s'.rank = s.rank := h.length_eq
  simp only [fit, hrank] at hf hf'
  split at hf
  · next hlt =>
    rw [if_pos hlt] at hf'
    obtain rfl := Except.ok.inj hf
    obtain rfl := Except.ok.inj hf'
    exact widen_refines h _
  · next hlt =>
    rw [if_neg hlt] at hf'
    exact narrow_refines h hf hf'

theorem rank_widen (n : Nat) (s : Shape) : (widen n s).rank = s.rank + n := by
  induction n generalizing s with
  | zero => rfl
  | succ n ih =>
    have : (s.insert (min s.rank 2) (.known 1)).rank = s.rank + 1 :=
      List.length_insertIdx_of_le_length (Nat.min_le_left _ _) _
    rw [widen, ih, this]
    omega

theorem rank_narrow {format : Format} {n : Nat} {out : Shape} (h : narrow format n s = .ok out) :
    out.rank + n = s.rank := by
  induction n generalizing s with
  | zero =>
    obtain rfl := Except.ok.inj h
    rfl
  | succ n ih =>
    obtain ⟨hd, hn⟩ := narrow_eq_ok h
    have hlt : 2 < s.rank := (List.getElem?_eq_some_iff.1 hd).1
    have hremove : (s.remove 2).rank = s.rank - 1 := List.length_eraseIdx_of_lt hlt
    have := ih hn
    omega

/-- Fitting changes nothing about a shape that keeps its rank. -/
theorem fit_eq_self {format : Format} {out : Shape} (h : s.fit format = .ok out)
    (hr : out.rank = s.rank) : out = s := by
  simp only [fit] at h
  split at h
  · next hlt =>
    obtain rfl := Except.ok.inj h
    rw [rank_widen] at hr
    omega
  · have := rank_narrow h
    have hz : s.rank - fittedRank format s.rank = 0 := by omega
    rw [hz] at h
    exact (Except.ok.inj h).symm

end Shape

namespace Infer

variable {p p' : Option (List Float)} {op op' : Operation} {ins ins' : List Layout} {l l' : Layout}

/-- Whatever an input declares, or is bound to, everything else about two operations is the
same. -/
def OperationRefines (op' op : Operation) : Prop :=
  op' = op ∨ ∃ d' d : Layout, op' = .input d' ∧ op = .input d ∧ d'.Refines d

theorem plain_refines {s' s : Shape} {e : ElementType} (h : s'.Refines s) :
    (Layout.plain s' e).Refines (.plain s e) :=
  ⟨h, rfl, by simp only [Layout.plain, Layout.unpadded, Shape.rank, h.length_eq]⟩

theorem unpadded_refines {s' s : Shape} {e : ElementType} {f : Format} (h : s'.Refines s) :
    (Layout.unpadded s' e f).Refines (.unpadded s e f) := ⟨h, rfl, rfl⟩

/-- A pattern that was known is still the same, one that was not may be known now. -/
theorem readPattern_cases {target : ReshapeTarget} (hp : p = none ∨ p' = p)
    {q q' : Option (List Int)} (h : readPattern p target = .ok q)
    (h' : readPattern p' target = .ok q') : q' = q ∨ q = none ∧
      ∀ pattern, q' = some pattern → pattern.length = targetRank target := by
  rcases hp with rfl | rfl
  · cases target with
    | pattern values => exact .inl (Except.ok.inj (h'.symm.trans h))
    | fromInput rank =>
      obtain rfl := Except.ok.inj h
      refine .inr ⟨rfl, ?_⟩
      rintro pattern rfl
      simp only [readPattern] at h'
      split at h'
      · cases Except.ok.inj h'
      · split at h'
        · cases h'
        next hlen =>
        obtain rfl := Option.some.inj (Except.ok.inj h')
        simpa [targetRank] using hlen
  · exact .inl (Except.ok.inj (h'.symm.trans h))

theorem reshaped_refines {input input' s s' : Shape} {target : ReshapeTarget} {copyZeros : Bool}
    (hin : input'.Refines input) (hp : p = none ∨ p' = p) {q q' : Option (List Int)}
    (h : readPattern p target = .ok q) (h' : readPattern p' target = .ok q')
    (hs : reshaped input target copyZeros q = .ok s)
    (hs' : reshaped input' target copyZeros q' = .ok s') : s'.Refines s := by
  have hunknown : ∀ {n : Nat} {s : Shape}, s.rank = n → s.Refines (.unknowns n) := by
    rintro n ⟨dims⟩ rfl
    refine List.forall₂_iff_get.2 ⟨by simp [Shape.unknowns, Shape.rank], fun i h₁ h₂ => .inl ?_⟩
    simp [Shape.unknowns]
  have hrank : ∀ {n : Nat} {s : Shape}, Shape.ofRank n = .ok s → s = .unknowns n := by
    intro n s h
    obtain ⟨_, -, h⟩ := Result.bind_eq_ok.1 h
    exact (Except.ok.inj h).symm
  rcases readPattern_cases hp h h' with rfl | ⟨rfl, hlen⟩
  · cases q' with
    | none =>
      rw [hrank hs, hrank hs']
      exact hunknown (by simp)
    | some pattern => exact Shape.reshape_refines hin hs hs'
  · rw [hrank hs]
    cases q' with
    | none => rw [hrank hs']; exact hunknown (by simp)
    | some pattern => exact hunknown ((Shape.rank_reshape hs').trans (hlen pattern rfl))

/-- What an operation yields from more knowledge refines what it yields from less. -/
theorem Yields.refines (hop : OperationRefines op' op) (hp : p = none ∨ p' = p)
    (hins : List.Forall₂ Layout.Refines ins' ins) (h : Yields p op ins l)
    (h' : Yields p' op' ins' l') : l'.Refines l := by
  obtain rfl | ⟨d', d, rfl, rfl, hd⟩ := hop
  swap
  · cases h
    cases h'
    obtain ⟨h₁, h₂, h₃⟩ := hd
    rw [h₂, h₃]
    exact unpadded_refines h₁
  cases h with
  | input | constant =>
    cases h'
    exact unpadded_refines (List.forall₂_same.2 fun d _ => .refl d)
  | @permute _ a _ _ =>
    cases h' with
    | permute _ _ =>
      obtain _ | ⟨ha, -⟩ := hins
      rw [ha.element]
      refine plain_refines ?_
      refine List.forall₂_map_left_iff.2 (List.forall₂_map_right_iff.2 ?_)
      refine List.forall₂_same.2 fun axis _ => ?_
      have hlen := ha.shape.length_eq
      by_cases hlt : axis < a.shape.dims.length
      · have := ha.shape.get (i := axis) (hlen ▸ hlt) hlt
        simpa [List.getD_eq_getElem?_getD, List.getElem?_eq_getElem, hlt, hlen ▸ hlt] using this
      · refine .inl ?_
        rw [List.getD_eq_getElem?_getD, List.getElem?_eq_none (Nat.le_of_not_lt hlt)]
        rfl
  | reshape hr hs =>
    cases h' with
    | reshape hr' hs' =>
      obtain _ | ⟨ha, -⟩ := hins
      rw [ha.element]
      exact plain_refines (reshaped_refines ha.shape hp hr hr' hs hs')
  | concatenation _ hj =>
    cases h' with
    | concatenation _ hj' =>
      obtain _ | ⟨ha, hrest⟩ := hins
      rw [ha.element, ha.format]
      exact unpadded_refines (hj.refines hrest hj' ha.shape)
  | crop _ _ _ =>
    cases h' with
    | crop _ _ _ =>
      obtain _ | ⟨ha, -⟩ := hins
      rw [ha.element, ha.format]
      exact unpadded_refines (List.forall₂_same.2 fun d _ => .refl d)
  | reorder hf =>
    cases h' with
    | reorder hf' =>
      obtain _ | ⟨ha, -⟩ := hins
      exact unpadded_refines (Shape.fit_refines ha.shape hf hf')
  | fullyConnected _ hw _ _ =>
    cases h' with
    | fullyConnected _ hw' _ _ =>
      obtain _ | ⟨ha, _ | ⟨hb, -⟩⟩ := hins
      rw [ha.element]
      have hwd := hb.shape
      rw [Shape.Refines, hw, hw'] at hwd
      obtain _ | ⟨ho, -⟩ := hwd
      exact plain_refines (List.rel_append (forall₂_dropLast ha.shape) (.cons ho .nil))

end Infer
end BufferFusion
