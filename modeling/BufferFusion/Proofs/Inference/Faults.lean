import BufferFusion.Proofs.Graph.Built
import BufferFusion.Proofs.Inference.Fixpoint
import BufferFusion.Proofs.Inference.Pattern

/-!
# Where inference faults

Offsets, sizes, dims and patterns come unchecked from whoever builds a graph, and some rules add
or multiply them in words. A rule answers, or says what does not fit together, unless one of these
sums and products is too large: then there is no answer at all. Nothing else goes wrong, and no
index is out of range.
-/
namespace BufferFusion

/-- All that can go wrong is that shapes do not fit, or a fault as `P` says. -/
structure Result.Faults {α : Type} (x : Result α) (P : Fault → Prop) : Prop where
  fault : ∀ φ, x = .error (.fault φ) ↔ P φ
  misfit : ∀ e, x = .error e → (∃ cause, e = .misfit cause) ∨ ∃ φ, e = .fault φ

namespace Result

variable {α β : Type} {x : Result α} {f : α → Result β} {P Q : Fault → Prop}

theorem faults_ok (a : α) : Faults (.ok a : Result α) fun _ => False := ⟨by simp, by simp⟩

theorem faults_misfit (cause : Misfit) :
    Faults (.error (.misfit cause) : Result α) fun _ => False := by
  refine ⟨by simp, fun e he => .inl ⟨cause, ?_⟩⟩
  exact (Except.error.inj he).symm

theorem faults_fault (φ : Fault) : Faults (fault φ : Result α) (· = φ) := by
  refine ⟨fun ψ => ?_, fun e he => .inr ⟨φ, (Except.error.inj he).symm⟩⟩
  simp [fault, eq_comm]

theorem Faults.congr (hx : x.Faults P) (h : ∀ φ, P φ ↔ Q φ) : x.Faults Q :=
  ⟨fun φ => (hx.fault φ).trans (h φ), hx.misfit⟩

theorem Faults.bind {Q : α → Fault → Prop} (hx : x.Faults P)
    (hf : ∀ a, x = .ok a → (f a).Faults (Q a)) :
    (x >>= f).Faults fun φ => P φ ∨ ∃ a, x = .ok a ∧ Q a φ := by
  refine ⟨fun φ => ?_, fun e he => ?_⟩
  · rw [bind_eq_error, hx.fault]
    exact or_congr_right (exists_congr fun a => and_congr_right fun ha => (hf a ha).fault φ)
  · obtain he | ⟨a, ha, he⟩ := bind_eq_error.1 he
    · exact hx.misfit e he
    · exact (hf a ha).misfit e he

theorem Faults.ok_bind {a : α} (h : (f a).Faults P) : Faults (Except.ok a >>= f) P := h

theorem Faults.map (hx : x.Faults P) (g : α → β) : (g <$> x).Faults P := by
  cases x with
  | ok a => exact (faults_ok (g a)).congr fun φ => by simpa using hx.fault φ
  | error e =>
    refine ⟨fun φ => ?_, fun e' he => hx.misfit e' ?_⟩
    · rw [← hx.fault φ]
      simp [Functor.map, Except.map]
    · cases he
      rfl

theorem Faults.bind_pure (hx : x.Faults P) (g : α → β) :
    (x >>= fun a => pure (g a)).Faults P := by
  rw [bind_pure_comp]
  exact hx.map g

/-- A step that can only overflow. -/
theorem OnlyOverflow.faults (hx : x.OnlyOverflow) (h : x = .error (.fault .overflow) ↔ P .overflow)
    (hP : ∀ φ, P φ → φ = .overflow) : x.Faults P := by
  refine ⟨fun φ => ⟨fun he => ?_, fun hφ => ?_⟩, fun e he => .inr ⟨_, hx e he⟩⟩
  · obtain rfl := Error.fault.inj (hx _ he)
    exact h.1 he
  · obtain rfl := hP φ hφ
    exact h.2 hφ

end Result

theorem Size.add_faults (a b : Nat) :
    (Size.add a b).Faults fun φ => φ = .overflow ∧ Size.limit ≤ a + b := by
  rw [Size.add, Size.fit]
  split
  · next hlt => exact (Result.faults_ok _).congr fun φ => by simp [Nat.not_le.2 hlt]
  · next hge => exact (Result.faults_fault _).congr fun φ => by simp [Nat.not_lt.1 hge]

namespace Dim

theorem add_faults (a b : Dim) : (a.add b).Faults fun φ =>
    φ = .overflow ∧ ∃ m n, a = .known m ∧ b = .known n ∧ Size.limit ≤ m + n := by
  cases a with
  | unknown => exact (Result.faults_ok _).congr (by simp)
  | known m =>
    cases b with
    | unknown => exact (Result.faults_ok _).congr (by simp)
    | known n => exact ((Size.add_faults m n).map known).congr (by simp)

/-- The dims before the first unknown one multiply to more than a word holds, the first few of them
suffice for that. -/
def Outgrow (ds : List Dim) : Prop :=
  ∃ (ns : List Nat) (rest : List Dim), ds = ns.map known ++ rest ∧ Size.limit ≤ ns.prod

theorem count_eq_overflow {n : Nat} {ds : List Dim} (hn : n < Size.limit) :
    count n ds = .error (.fault .overflow) ↔ ∃ (ns : List Nat) (rest : List Dim),
      ds = ns.map known ++ rest ∧ Size.limit ≤ n * ns.prod := by
  induction ds generalizing n with
  | nil =>
    simp only [count, reduceCtorEq, false_iff]
    rintro ⟨ns, rest, hds, hlarge⟩
    obtain rfl := List.map_eq_nil_iff.1 (List.append_eq_nil_iff.1 hds.symm).1
    simp only [List.prod_nil, Nat.mul_one] at hlarge
    omega
  | cons d ds ih =>
    have hcons : (∃ (ns : List Nat) (rest : List Dim), d :: ds = ns.map known ++ rest ∧
          Size.limit ≤ n * ns.prod) ↔
        ∃ m, d = .known m ∧ ∃ (ns : List Nat) (rest : List Dim), ds = ns.map known ++ rest ∧
          Size.limit ≤ n * m * ns.prod := by
      constructor
      · rintro ⟨_ | ⟨m, ns⟩, rest, hds, hlarge⟩
        · simp only [List.prod_nil, Nat.mul_one] at hlarge
          omega
        · obtain ⟨rfl, rfl⟩ := List.cons.inj hds
          exact ⟨m, rfl, ns, rest, rfl, by rwa [Nat.mul_assoc, ← List.prod_cons]⟩
      · rintro ⟨m, rfl, ns, rest, rfl, hlarge⟩
        exact ⟨m :: ns, rest, rfl, by rwa [List.prod_cons, ← Nat.mul_assoc]⟩
    rw [hcons]
    cases d with
    | unknown => simp [count]
    | known m =>
      rw [count, Result.bind_eq_error]
      simp only [known.injEq, exists_eq_left']
      by_cases hm : n * m < Size.limit
      · have hmul : Size.mul n m = .ok (n * m) := Size.mul_eq_ok.2 ⟨rfl, hm⟩
        simp only [hmul, reduceCtorEq, Except.ok.injEq, exists_eq_left', false_or]
        exact ih hm
      · have hmul : Size.mul n m = .error (.fault .overflow) := if_neg hm
        refine iff_of_true (.inl hmul) ⟨[], ds, rfl, ?_⟩
        simpa using hm

theorem count_faults (ds : List Dim) :
    (count 1 ds).Faults fun φ => φ = .overflow ∧ Outgrow ds := by
  refine (count_onlyOverflow 1 ds).faults ?_ fun φ h => h.1
  rw [count_eq_overflow (by decide)]
  simp [Outgrow]

end Dim

namespace Infer

/-! ### Windows -/

/-- Below an axis, the window ends inside every dim that is known. -/
def InsideBelow (dims : List Dim) (offsets sizes : List Nat) (axis : Nat) : Prop :=
  ∀ i < axis, ∀ n o s, dims[i]? = some (.known n) → offsets[i]? = some o → sizes[i]? = some s →
    o + s ≤ n ∧ o + s < Size.limit

/-- The first axis where the window does not end inside a known dim. There it ends at `stop`. -/
structure LeavesAt (dims : List Dim) (offsets sizes : List Nat) (axis stop : Nat) : Prop where
  below : InsideBelow dims offsets sizes axis
  leaves : ∃ n o s, dims[axis]? = some (.known n) ∧ offsets[axis]? = some o ∧
    sizes[axis]? = some s ∧ o + s = stop ∧ (n < stop ∨ Size.limit ≤ stop)

theorem LeavesAt.unique {dims : List Dim} {offsets sizes : List Nat} {i j a b : Nat}
    (h : LeavesAt dims offsets sizes i a) (h' : LeavesAt dims offsets sizes j b) :
    i = j ∧ a = b := by
  obtain ⟨hbelow, n, o, s, hn, ho, hs, rfl, hout⟩ := h
  obtain ⟨hbelow', n', o', s', hn', ho', hs', rfl, hout'⟩ := h'
  obtain hij | rfl | hij := Nat.lt_trichotomy i j
  · have := hbelow' i hij n o s hn ho hs
    omega
  · obtain rfl := Option.some.inj (ho.symm.trans ho')
    obtain rfl := Option.some.inj (hs.symm.trans hs')
    exact ⟨rfl, rfl⟩
  · have := hbelow j hij n' o' s' hn' ho' hs'
    omega

section Windows

variable {d : Dim} {dims : List Dim} {o s axis stop : Nat} {offsets sizes : List Nat}

theorem InsideBelow.cons (hd : ∀ n, d = .known n → o + s ≤ n ∧ o + s < Size.limit)
    (h : InsideBelow dims offsets sizes axis) :
    InsideBelow (d :: dims) (o :: offsets) (s :: sizes) (axis + 1) := by
  rintro (_ | i) hi n o' s' hn ho hs
  · obtain rfl := Option.some.inj ho
    obtain rfl := Option.some.inj hs
    exact hd n (Option.some.inj hn)
  · exact h i (Nat.lt_of_succ_lt_succ hi) n o' s' hn ho hs

theorem LeavesAt.cons (hd : ∀ n, d = .known n → o + s ≤ n ∧ o + s < Size.limit)
    (h : LeavesAt dims offsets sizes axis stop) :
    LeavesAt (d :: dims) (o :: offsets) (s :: sizes) (axis + 1) stop :=
  ⟨h.below.cons hd, h.leaves⟩

/-- A window lies inside the known dims, or its end is compared with a dim that is too small, or is
no word. -/
theorem fitsWindow_cases (dims : List Dim) (offsets sizes : List Nat) :
    fitsWindow dims offsets sizes = .ok true ∧
        (∀ axis, InsideBelow dims offsets sizes axis) ∨
      ∃ axis stop, LeavesAt dims offsets sizes axis stop ∧
        (stop < Size.limit ∧ fitsWindow dims offsets sizes = .ok false ∨
          Size.limit ≤ stop ∧ fitsWindow dims offsets sizes = .error (.fault .overflow)) := by
  induction dims generalizing offsets sizes with
  | nil => exact .inl ⟨rfl, fun axis i _ n _ _ hn => nomatch hn⟩
  | cons d dims ih =>
    obtain _ | ⟨o, offsets⟩ := offsets
    · exact .inl ⟨by cases d <;> rfl, fun axis i _ _ _ _ _ ho => nomatch ho⟩
    obtain _ | ⟨s, sizes⟩ := sizes
    · exact .inl ⟨by cases d <;> rfl, fun axis i _ _ _ _ _ _ hs => nomatch hs⟩
    have hrest (hd : ∀ n, d = .known n → o + s ≤ n ∧ o + s < Size.limit)
        (hfits : fitsWindow (d :: dims) (o :: offsets) (s :: sizes) =
          fitsWindow dims offsets sizes) :
        fitsWindow (d :: dims) (o :: offsets) (s :: sizes) = .ok true ∧
            (∀ axis, InsideBelow (d :: dims) (o :: offsets) (s :: sizes) axis) ∨
          ∃ axis stop, LeavesAt (d :: dims) (o :: offsets) (s :: sizes) axis stop ∧
            (stop < Size.limit ∧ fitsWindow (d :: dims) (o :: offsets) (s :: sizes) = .ok false ∨
              Size.limit ≤ stop ∧ fitsWindow (d :: dims) (o :: offsets) (s :: sizes) =
                .error (.fault .overflow)) := by
      obtain ⟨hok, hin⟩ | ⟨axis, stop, hleaves, hcase⟩ := ih offsets sizes
      · refine .inl ⟨hfits.trans hok, fun axis i hi => ?_⟩
        exact (hin i).cons hd i (Nat.lt_succ_self i)
      · rw [hfits]
        exact .inr ⟨axis + 1, stop, hleaves.cons hd, hcase⟩
    cases d with
    | unknown => exact hrest nofun rfl
    | known n =>
      have hhere (hout : n < o + s ∨ Size.limit ≤ o + s) :
          LeavesAt (.known n :: dims) (o :: offsets) (s :: sizes) 0 (o + s) :=
        ⟨nofun, n, o, s, rfl, rfl, rfl, rfl, hout⟩
      by_cases hword : o + s < Size.limit
      · have hadd : Size.add o s = .ok (o + s) := Size.add_eq_ok.2 ⟨rfl, hword⟩
        by_cases hin : n < o + s
        · refine .inr ⟨0, o + s, hhere (.inl hin), .inl ⟨hword, ?_⟩⟩
          simp only [fitsWindow, hadd, bind, Except.bind, if_pos hin]
          rfl
        · refine hrest (fun m hm => ?_) ?_
          · obtain rfl := Dim.known.inj hm
            exact ⟨Nat.not_lt.1 hin, hword⟩
          · simp only [fitsWindow, hadd, bind, Except.bind, if_neg hin]
      · have hlarge := Nat.not_lt.1 hword
        have hadd : Size.add o s = .error (.fault .overflow) := if_neg hword
        refine .inr ⟨0, o + s, hhere (.inr hlarge), .inr ⟨hlarge, ?_⟩⟩
        simp only [fitsWindow, hadd, bind, Except.bind]

theorem fitsWindow_faults (dims : List Dim) (offsets sizes : List Nat) :
    (fitsWindow dims offsets sizes).Faults fun φ => φ = .overflow ∧
      ∃ axis stop, LeavesAt dims offsets sizes axis stop ∧ Size.limit ≤ stop := by
  obtain ⟨hok, hin⟩ | ⟨axis, stop, hleaves, ⟨hlt, hok⟩ | ⟨hge, herr⟩⟩ :=
    fitsWindow_cases dims offsets sizes
  · rw [hok]
    refine (Result.faults_ok _).congr fun φ => iff_of_false not_false ?_
    rintro ⟨-, axis, stop, ⟨-, n, o, s, hn, ho, hs, rfl, hout⟩, -⟩
    have := hin (axis + 1) axis (Nat.lt_succ_self axis) n o s hn ho hs
    omega
  · rw [hok]
    refine (Result.faults_ok _).congr fun φ => iff_of_false not_false ?_
    rintro ⟨-, axis', stop', hleaves', hge⟩
    obtain ⟨-, rfl⟩ := hleaves.unique hleaves'
    omega
  · rw [herr]
    exact (Result.faults_fault _).congr fun φ =>
      ⟨fun h => ⟨h, axis, stop, hleaves, hge⟩, fun h => h.1⟩

theorem fitsWindow_eq_false (h : LeavesAt dims offsets sizes axis stop) (hlt : stop < Size.limit) :
    fitsWindow dims offsets sizes = .ok false := by
  obtain ⟨-, hin⟩ | ⟨axis', stop', hleaves, ⟨-, hok⟩ | ⟨hge, -⟩⟩ :=
    fitsWindow_cases dims offsets sizes
  · obtain ⟨-, n, o, s, hn, ho, hs, rfl, hout⟩ := h
    have := hin (axis + 1) axis (Nat.lt_succ_self axis) n o s hn ho hs
    omega
  · exact hok
  · obtain ⟨-, rfl⟩ := h.unique hleaves
    omega

end Windows

/-! ### Concatenations -/

/-- One more input of a concatenation agrees with those before it up to the axis, and there their
dims add up to more than a word holds. -/
structure JoinOverruns (axis : Nat) (first : Layout) (dims : List Dim) (l : Layout) : Prop where
  rank : l.rank = first.rank
  element : l.element = first.element
  format : l.format = first.format
  agree : ∀ i < axis, ∀ d e, dims[i]? = some d → l.shape.dims[i]? = some e →
    (d.merge e).isSome = true
  large : ∃ m n, dims[axis]? = some (.known m) ∧ l.shape.dims[axis]? = some (.known n) ∧
    Size.limit ≤ m + n

section Joins

variable {axis slot : Nat} {shape firstShape : Shape} {first : Layout} {c : InferenceContext}

/-- The dims of two inputs from axis `i` on. -/
theorem joinDims_faults (i : Nat) (as bs : List Dim) :
    (joinDims axis slot shape firstShape i as bs).Faults fun φ => φ = .overflow ∧
      ∃ k, i + k = axis ∧
        (∀ j < k, ∀ d e, as[j]? = some d → bs[j]? = some e → (d.merge e).isSome = true) ∧
          ∃ m n, as[k]? = some (.known m) ∧ bs[k]? = some (.known n) ∧ Size.limit ≤ m + n := by
  induction as generalizing i bs with
  | nil => exact (Result.faults_ok _).congr (by simp)
  | cons a as ih =>
    obtain _ | ⟨b, bs⟩ := bs
    · exact (Result.faults_ok _).congr (by simp)
    rw [joinDims]
    by_cases hi : i = axis
    · subst hi
      rw [if_pos rfl]
      refine ((Dim.add_faults a b).bind fun d _ => (ih (i + 1) bs).bind_pure _).congr fun φ => ?_
      constructor
      · rintro (⟨rfl, m, n, rfl, rfl, hlarge⟩ | ⟨_, _, -, k, hk, -⟩)
        · exact ⟨rfl, 0, rfl, by simp, m, n, rfl, rfl, hlarge⟩
        · omega
      · rintro ⟨rfl, k, hk, -, m, n, hm, hn, hlarge⟩
        obtain rfl : k = 0 := by omega
        exact .inl ⟨rfl, m, n, Option.some.inj hm, Option.some.inj hn, hlarge⟩
    · rw [if_neg hi]
      cases hmerge : a.merge b with
      | none =>
        refine (Result.faults_misfit _).congr fun φ => iff_of_false not_false ?_
        rintro ⟨-, _ | k, hk, hagree, -⟩
        · exact hi hk
        · have := hagree 0 (Nat.succ_pos k) a b rfl rfl
          simp [hmerge] at this
      | some d =>
        refine ((ih (i + 1) bs).bind_pure (d :: ·)).congr fun φ => and_congr_right fun _ => ?_
        constructor
        · rintro ⟨k, hk, hagree, hlarge⟩
          refine ⟨k + 1, by omega, ?_, hlarge⟩
          rintro (_ | j) hj d' e' hd he
          · obtain rfl := Option.some.inj hd
            obtain rfl := Option.some.inj he
            simp [hmerge]
          · exact hagree j (Nat.lt_of_succ_lt_succ hj) d' e' hd he
        · rintro ⟨_ | k, hk, hagree, hlarge⟩
          · exact absurd hk hi
          · exact ⟨k, by omega, fun j hj => hagree (j + 1) (Nat.succ_lt_succ hj), hlarge⟩

/-- Joining the inputs from `slot` on faults at the first one that is too long. -/
theorem joinInputs_faults {ids : List NodeId} {ls : List Layout} (dims : List Dim)
    (hlen : ids.length = ls.length) (hls : ∀ i l, ls[i]? = some l → c.input (slot + i) = .ok l) :
    (joinInputs c axis first slot dims ids).Faults fun φ => φ = .overflow ∧
      ∃ before l after joined, ls = before ++ l :: after ∧ Joined axis first dims before joined ∧
        JoinOverruns axis first joined l := by
  induction ids generalizing slot dims ls with
  | nil =>
    obtain rfl := List.eq_nil_of_length_eq_zero hlen.symm
    exact (Result.faults_ok _).congr (by simp)
  | cons id ids ih =>
    obtain _ | ⟨l, ls⟩ := ls
    · cases hlen
    have hl : c.input slot = .ok l := hls 0 l rfl
    have hrest := input_tail hls
    rw [joinInputs, hl]
    change Result.Faults (if _ then _ else _) _
    split
    · next hne =>
      refine (Result.faults_misfit _).congr fun φ => iff_of_false not_false ?_
      rintro ⟨-, before, l', after, joined, hls, hj, hover⟩
      have hmatch : l.rank = first.rank ∧ l.element = first.element ∧ l.format = first.format := by
        cases hj with
        | nil =>
          obtain ⟨rfl, -⟩ := List.cons.inj hls
          exact ⟨hover.rank, hover.element, hover.format⟩
        | cons hr he hf =>
          obtain ⟨rfl, -⟩ := List.cons.inj hls
          exact ⟨hr, he, hf⟩
      simp [hmatch] at hne
    · next heq =>
      rw [not_or, not_or, not_not, not_not, not_not] at heq
      obtain ⟨hr, he, hf⟩ := heq
      refine ((joinDims_faults 0 dims l.shape.dims).bind fun joined _ =>
        ih joined (Nat.succ.inj hlen) hrest).congr fun φ => ?_
      constructor
      · rintro (⟨rfl, k, hk, hagree, hlarge⟩ |
          ⟨joined, hj, rfl, before, l', after, out, rfl, hjs, ho⟩)
        · obtain rfl : k = axis := by omega
          exact ⟨rfl, [], l, ls, dims, rfl, .nil, hr, he, hf, hagree, hlarge⟩
        · exact ⟨rfl, l :: before, l', after, out, rfl, .cons hr he hf (joinDims_slot.1 hj) hjs, ho⟩
      · rintro ⟨rfl, before, l', after, out, hls, hjs, ho⟩
        cases hjs with
        | nil =>
          obtain ⟨rfl, -⟩ := List.cons.inj hls
          exact .inl ⟨rfl, axis, Nat.zero_add _, ho.agree, ho.large⟩
        | cons _ _ _ hj hjs =>
          obtain ⟨rfl, rfl⟩ := List.cons.inj hls
          exact .inr ⟨_, joinDims_slot.1 hj, rfl, _, l', after, out, rfl, hjs, ho⟩

end Joins

/-! ### Reshapes and formats -/

/-- A pattern can be read, and one of the two products that are taken then is too large: that of
the input's dims or that of the dims given. -/
def ReshapeOverruns (input : Shape) (pattern : List Int) (copyZeros : Bool) : Prop :=
  ∃ dims found, Shape.patternDims input pattern copyZeros 0 none pattern = .ok (dims, found) ∧
    (Dim.Outgrow input.dims ∨ Dim.Outgrow (found.elim dims dims.eraseIdx))

theorem reshapeShape_faults (input : Shape) (pattern : List Int) (copyZeros : Bool) :
    (input.reshape pattern copyZeros).Faults fun φ =>
      φ = .overflow ∧ ReshapeOverruns input pattern copyZeros := by
  cases hd : Shape.patternDims input pattern copyZeros 0 none pattern with
  | error e =>
    obtain ⟨cause, rfl⟩ := (Shape.patternDims_eq_error rfl hd).1
    have herr : input.reshape pattern copyZeros = .error (.misfit cause) :=
      Result.bind_eq_error.2 (.inl hd)
    rw [herr]
    refine (Result.faults_misfit cause).congr fun φ => iff_of_false not_false ?_
    rintro ⟨-, dims, found, hok, -⟩
    cases hd.symm.trans hok
  | ok r =>
    obtain ⟨dims, found⟩ := r
    have hlarge : ReshapeOverruns input pattern copyZeros ↔
        input.count = .error (.fault .overflow) ∨
          Dim.count 1 (found.elim dims dims.eraseIdx) = .error (.fault .overflow) := by
      rw [Shape.count, (Dim.count_faults _).fault, (Dim.count_faults _).fault]
      simp [ReshapeOverruns, hd]
    by_cases h : ReshapeOverruns input pattern copyZeros
    · rw [Shape.reshape_of_overflow hd (hlarge.1 h)]
      exact (Result.faults_fault .overflow).congr fun φ => ⟨fun hφ => ⟨hφ, h⟩, fun hφ => hφ.1⟩
    · obtain ⟨n, hn⟩ := (Dim.count_onlyOverflow 1 input.dims).eq_ok fun hc => h (hlarge.2 (.inl hc))
      obtain ⟨p, hp⟩ := (Dim.count_onlyOverflow 1 (found.elim dims dims.eraseIdx)).eq_ok fun hc =>
        h (hlarge.2 (.inr hc))
      -- both products are there, and comparing them is no arithmetic
      suffices (input.reshape pattern copyZeros).Faults fun _ => False from
        this.congr fun φ => by simp [h]
      rw [Shape.reshape, hd, Shape.count, hn]
      cases found with
      | none =>
        rw [Option.elim_none] at hp
        simp only [bind, Except.bind, hp]
        cases n <;> cases p
        case some.some =>
          simp only
          split
          · exact Result.faults_ok _
          · exact Result.faults_misfit _
        all_goals exact Result.faults_ok _
      | some axis =>
        rw [Option.elim_some] at hp
        simp only [bind, Except.bind, hp]
        cases n <;> cases p
        case some.some =>
          simp only
          split
          · exact Result.faults_misfit _
          · exact Result.faults_ok _
        all_goals exact Result.faults_ok _

theorem ofRank_faults (rank : Nat) :
    (Shape.ofRank rank).Faults fun φ => φ = .capacity ∧ Size.capacity 16 < rank := by
  rw [Shape.ofRank, Size.reserve]
  split
  · next hle => exact (Result.faults_ok _).congr fun φ => by simp [Nat.not_lt.2 hle]
  · next hgt => exact (Result.faults_fault .capacity).congr fun φ => by simp [Nat.not_le.1 hgt]

theorem narrow_faults {format : Format} {n : Nat} {s : Shape} (h : 0 < n → n + 2 ≤ s.rank) :
    (s.narrow format n).Faults fun _ => False := by
  induction n generalizing s with
  | zero => exact Result.faults_ok s
  | succ n ih =>
    have hlt : 2 < s.dims.length := by
      have := h (Nat.succ_pos n)
      rw [Shape.rank] at this
      omega
    have hremove : (s.remove 2).rank = s.rank - 1 := List.length_eraseIdx_of_lt hlt
    rw [Shape.narrow, List.getElem?_eq_getElem hlt]
    split
    · refine ih fun hn => ?_
      have := h (Nat.succ_pos n)
      omega
    · exact Result.faults_misfit _
    · next hnone => cases hnone

/-- A shape is fitted to a format without any arithmetic. -/
theorem fit_faults (s : Shape) (format : Format) : (s.fit format).Faults fun _ => False := by
  rw [Shape.fit]
  split
  · exact Result.faults_ok _
  · refine narrow_faults fun hpos => ?_
    cases format <;> simp only [Shape.fittedRank, Format.maxRank] at hpos ⊢ <;> omega

/-! ### Rules -/

/-- What a rule computes from the layouts of the inputs is too large for a word, or for an
allocation, and all that the rule looks at before is in order. -/
inductive Overruns (values? : Option (List Float)) : Operation → List Layout → Fault → Prop
  | crop {offsets sizes a axis stop} (offsets_length : offsets.length = a.rank)
      (sizes_length : sizes.length = a.rank)
      (leaves : LeavesAt a.shape.dims offsets sizes axis stop) (large : Size.limit ≤ stop) :
      Overruns values? (.crop offsets sizes) [a] .overflow
  | concatenation {axis first before l after joined} (inside : axis < first.rank)
      (join : Joined axis first first.shape.dims before joined)
      (large : JoinOverruns axis first joined l) :
      Overruns values? (.concatenation axis) (first :: (before ++ l :: after)) .overflow
  | reshape {target copyZeros a rest pattern}
      (read : readPattern values? target = .ok (some pattern))
      (large : ReshapeOverruns a.shape pattern copyZeros) :
      Overruns values? (.reshape target copyZeros) (a :: rest) .overflow
  | unread {target copyZeros a rest} (read : readPattern values? target = .ok none)
      (large : Size.capacity 16 < targetRank target) :
      Overruns values? (.reshape target copyZeros) (a :: rest) .capacity

section Rules

variable {c : InferenceContext} {a : Layout} {ins rest : List Layout}
  {values? : Option (List Float)}

theorem permute_faults {order : List Nat} (hop : c.node.op = .permute order)
    (ha : c.input 0 = .ok a) : (permute c).Faults fun _ => False := by
  simp only [permute, hop, ha, bind, Except.bind]
  split
  · exact Result.faults_misfit _
  · split
    · exact Result.faults_misfit _
    · exact Result.faults_ok _

theorem crop_faults {offsets sizes : List Nat} (hop : c.node.op = .crop offsets sizes)
    (ha : c.input 0 = .ok a) : (crop c).Faults (Overruns values? (.crop offsets sizes) [a]) := by
  simp only [crop, hop, ha]
  change Result.Faults (if _ then _ else _) _
  split
  · next hlen =>
    refine (Result.faults_misfit _).congr fun φ => iff_of_false not_false ?_
    rintro ⟨ho, hs, -, -⟩
    exact hlen.elim (· ho) (· hs)
  · next hlen =>
    rw [not_or, not_not, not_not] at hlen
    refine ((fitsWindow_faults a.shape.dims offsets sizes).bind (Q := fun _ _ => False)
      fun fits _ => ?_).congr fun φ => ?_
    · cases fits
      · exact Result.faults_misfit _
      · exact Result.faults_ok _
    · constructor
      · rintro (⟨rfl, axis, stop, hleaves, hlarge⟩ | ⟨_, -, h⟩)
        · exact .crop hlen.1 hlen.2 hleaves hlarge
        · exact h.elim
      · rintro ⟨-, -, hleaves, hlarge⟩
        exact .inl ⟨rfl, _, _, hleaves, hlarge⟩

theorem concatenation_faults {axis : Nat} (hop : c.node.op = .concatenation axis)
    (ha : c.input 0 = .ok a) (hlen : c.node.inputs.tail.length = rest.length)
    (hrest : ∀ i l, rest[i]? = some l → c.input (1 + i) = .ok l) :
    (concatenation c).Faults (Overruns values? (.concatenation axis) (a :: rest)) := by
  simp only [concatenation, hop, ha]
  change Result.Faults (if _ then _ else _) _
  split
  · next hle =>
    refine (Result.faults_misfit _).congr fun φ => iff_of_false not_false ?_
    rintro ⟨-, -⟩
    omega
  · next hlt =>
    refine ((joinInputs_faults a.shape.dims hlen hrest).bind_pure _).congr fun φ => ?_
    constructor
    · rintro ⟨rfl, before, l, after, joined, rfl, hj, hlarge⟩
      exact .concatenation (Nat.not_le.1 hlt) hj hlarge
    · rintro ⟨-, -⟩
      exact ⟨rfl, _, _, _, _, rfl, ‹_›, ‹_›⟩

theorem readPattern_faults (values? : Option (List Float)) (target : ReshapeTarget) :
    (readPattern values? target).Faults fun _ => False := by
  cases target with
  | pattern values => exact Result.faults_ok _
  | fromInput rank =>
    cases values? with
    | none => exact Result.faults_ok _
    | some values =>
      rw [readPattern]
      split
      · exact Result.faults_misfit _
      · exact Result.faults_ok _

theorem reshape_faults {target : ReshapeTarget} {copyZeros : Bool}
    (hop : c.node.op = .reshape target copyZeros) (ha : c.input 0 = .ok a) :
    (reshape c).Faults (Overruns (c.inputValues? 1) (.reshape target copyZeros) (a :: rest)) := by
  simp only [reshape, hop, ha, pattern?_eq]
  refine ((readPattern_faults (c.inputValues? 1) target).bind (Q := fun pattern φ =>
    pattern.elim (φ = .capacity ∧ Size.capacity 16 < targetRank target)
      fun p => φ = .overflow ∧ ReshapeOverruns a.shape p copyZeros)
    fun pattern _ => ?_).congr fun φ => ?_
  · cases pattern with
    | some p => exact (reshapeShape_faults a.shape p copyZeros).bind_pure _
    | none => exact (ofRank_faults _).bind_pure _
  · constructor
    · rintro (h | ⟨_ | p, hread, rfl, hlarge⟩)
      · exact h.elim
      · exact .unread hread hlarge
      · exact .reshape hread hlarge
    · rintro (_ | _ | ⟨hread, hlarge⟩ | ⟨hread, hlarge⟩)
      · exact .inr ⟨_, hread, rfl, hlarge⟩
      · exact .inr ⟨_, hread, rfl, hlarge⟩

theorem reorder_faults {format : Format} {element : ElementType}
    (hop : c.node.op = .reorder format element) (ha : c.input 0 = .ok a) :
    (reorder c).Faults fun _ => False := by
  simp only [reorder, hop, ha]
  exact (fit_faults a.shape format).bind_pure _

theorem checkBias_faults (outputs : Dim) (bias : Layout) :
    (checkBias outputs bias).Faults fun _ => False := by
  rw [checkBias]
  split
  · exact Result.faults_misfit _
  · exact Result.faults_ok _

theorem fullyConnected_faults {b : Layout} (ha : c.input 0 = .ok a) (hb : c.input 1 = .ok b)
    (hlen : c.node.inputs.length = (a :: b :: rest).length)
    (hrest : rest = [] ∨ ∃ bias, rest = [bias] ∧ c.input 2 = .ok bias) :
    (fullyConnected c).Faults fun _ => False := by
  have hbias : ∀ (outputs : Dim) (r : Layout), Result.Faults
      (if c.node.inputs.length = 3 then do
        checkBias outputs (← c.input 2)
        pure r
      else pure r) fun _ => False := by
    intro outputs r
    obtain rfl | ⟨bias, rfl, h2⟩ := hrest
    · rw [if_neg (by simp [hlen])]
      exact Result.faults_ok r
    · rw [if_pos (by simp [hlen]), h2]
      exact (checkBias_faults outputs bias).bind_pure _
  simp only [fullyConnected, ha, hb]
  refine .ok_bind (.ok_bind ?_)
  split
  · exact Result.faults_misfit _
  · split
    · exact Result.faults_misfit _
    · exact hbias _ _
  · exact Result.faults_misfit _

/-- A rule faults if and only if what it computes is too large. -/
theorem rule_faults (htakes : c.node.op.takes c.node.inputs.length = true)
    (h : List.Forall₂ (fun a l => c.graph.layout a = .ok l) c.node.inputs ins) :
    (rule c.node.tag c).Faults (Overruns (c.inputValues? 1) c.node.op ins) := by
  have hin : ∀ {slot l}, ins[slot]? = some l → c.input slot = .ok l :=
    fun hs => (input_eq_ok_iff h).2 hs
  have hlen := h.length_eq
  rw [hlen] at htakes
  cases hop : c.node.op with
  | input d =>
    simp only [Node.tag, hop, Operation.tag, rule, source, Operation.declared?]
    exact (Result.faults_ok _).congr fun φ => iff_of_false not_false (by rintro ⟨⟩)
  | constant d xs =>
    simp only [Node.tag, hop, Operation.tag, rule, source, Operation.declared?]
    exact (Result.faults_ok _).congr fun φ => iff_of_false not_false (by rintro ⟨⟩)
  | permute order =>
    rw [hop] at htakes
    obtain ⟨a, rfl⟩ := List.length_eq_one_iff.1 (by simpa [Operation.takes] using htakes)
    simp only [Node.tag, hop, Operation.tag, rule]
    exact (permute_faults hop (hin rfl)).congr fun φ => iff_of_false not_false (by rintro ⟨⟩)
  | crop offsets sizes =>
    rw [hop] at htakes
    obtain ⟨a, rfl⟩ := List.length_eq_one_iff.1 (by simpa [Operation.takes] using htakes)
    simp only [Node.tag, hop, Operation.tag, rule]
    exact crop_faults hop (hin rfl)
  | reorder format element =>
    rw [hop] at htakes
    obtain ⟨a, rfl⟩ := List.length_eq_one_iff.1 (by simpa [Operation.takes] using htakes)
    simp only [Node.tag, hop, Operation.tag, rule]
    exact (reorder_faults hop (hin rfl)).congr fun φ => iff_of_false not_false (by rintro ⟨⟩)
  | reshape target copyZeros =>
    rw [hop] at htakes
    obtain _ | ⟨a, rest⟩ := ins
    · cases target <;> simp [Operation.takes] at htakes
    simp only [Node.tag, hop, Operation.tag, rule]
    exact reshape_faults hop (hin rfl)
  | concatenation axis =>
    rw [hop] at htakes
    obtain _ | ⟨a, rest⟩ := ins
    · simp [Operation.takes] at htakes
    simp only [Node.tag, hop, Operation.tag, rule]
    refine concatenation_faults hop (hin rfl) (by simp [hlen]) fun i l hi => ?_
    exact hin (by simpa [Nat.add_comm 1 i] using hi)
  | fullyConnected =>
    rw [hop] at htakes
    obtain _ | ⟨a, _ | ⟨b, rest⟩⟩ := ins
    · simp [Operation.takes] at htakes
    · simp [Operation.takes] at htakes
    simp only [Node.tag, hop, Operation.tag, rule]
    refine (fullyConnected_faults (hin rfl) (hin rfl) hlen ?_).congr fun φ =>
      iff_of_false not_false (by rintro ⟨⟩)
    obtain _ | ⟨bias, _ | ⟨x, xs⟩⟩ := rest
    · exact .inl rfl
    · exact .inr ⟨bias, rfl, hin rfl⟩
    · simp [Operation.takes] at htakes

/-- A window that ends at a word, but not inside a known dim, is no window of the input. -/
theorem infer_of_leavesAt {offsets sizes : List Nat} {axis stop : Nat}
    (hop : c.node.op = .crop offsets sizes) (ha : c.input 0 = .ok a) (ho : offsets.length = a.rank)
    (hs : sizes.length = a.rank) (h : LeavesAt a.shape.dims offsets sizes axis stop)
    (hlt : stop < Size.limit) : InferenceTable.standard.infer c =
      .error (.atNode .crop c.node.name (.misfit (.windowExceeds offsets sizes a.shape))) := by
  have htag : c.node.tag = .crop := by rw [Node.tag, hop, Operation.tag]
  have hcrop : crop c = .error (.misfit (.windowExceeds offsets sizes a.shape)) := by
    simp only [crop, hop, ha]
    change (if _ then _ else _) = _
    rw [if_neg (by simp [ho, hs]), fitsWindow_eq_false h hlt]
    rfl
  simp only [InferenceTable.infer, InferenceTable.standard, htag, rule, hcrop]
  simp [Except.mapError, bind, Except.bind, InferenceTable.blame, htag]

/-- The standard table faults where the rule of the node does. Everything else that goes wrong it
ties to the node. -/
theorem infer_faults (htakes : c.node.op.takes c.node.inputs.length = true)
    (h : List.Forall₂ (fun a l => c.graph.layout a = .ok l) c.node.inputs ins) :
    (∀ φ, InferenceTable.standard.infer c = .error (.fault φ) ↔
      Overruns (c.inputValues? 1) c.node.op ins φ) ∧
    ∀ e, InferenceTable.standard.infer c = .error e →
      (∃ φ, e = .fault φ) ∨ ∃ cause, e = .atNode c.node.tag c.node.name cause := by
  have hrule := rule_faults htakes h
  simp only [← hrule.fault]
  simp only [InferenceTable.infer, InferenceTable.standard]
  cases hr : rule c.node.tag c with
  | error e =>
    obtain ⟨cause, rfl⟩ | ⟨φ, rfl⟩ := hrule.misfit e hr
    · refine ⟨fun φ => iff_of_false (by rintro ⟨⟩) (by rintro ⟨⟩), fun e he => .inr ⟨.misfit cause, ?_⟩⟩
      cases he
      rfl
    · refine ⟨fun ψ => ?_, fun e he => .inl ⟨φ, ?_⟩⟩
      · rfl
      · cases he
        rfl
  | ok l =>
    simp only [Except.mapError, bind, Except.bind]
    cases l.validate with
    | error e =>
      refine ⟨fun φ => iff_of_false (by rintro ⟨⟩) (by rintro ⟨⟩), fun e' he => .inr ⟨e, ?_⟩⟩
      cases he
      rfl
    | ok u => exact ⟨fun φ => iff_of_false (by rintro ⟨⟩) (by rintro ⟨⟩), by rintro _ ⟨⟩⟩

end Rules

end Infer

/-! ### Graphs -/

namespace Graph

variable {f g h : Graph} {values : InputValues} {done ids : List NodeId} {id : NodeId} {n : Node}
  {offsets sizes : List Nat} {e : Error}

/-- A run that fails has come to the first node that cannot be inferred. -/
theorem inferring_of_error (hs : h.Sound) (ho : h.Ordered done ids) (k : Inferring h g values done)
    (hi : InferenceTable.standard.inferAlong values ids g = (f, .error e)) :
    ∃ before id after, ids = before ++ id :: after ∧
      Inferring h f values (before.reverse ++ done) ∧
        (∀ a, h.Feeds a id → a ∈ before.reverse ++ done) ∧ h.contains id = true ∧
          InferenceTable.standard.inferNode f values id = .error e := by
  induction ids generalizing g done with
  | nil => cases (Prod.mk.inj hi).2
  | cons id ids ih =>
    obtain ⟨hnew, hlive, hready, hrest⟩ := ho
    cases hl : InferenceTable.standard.inferNode g values id with
    | error e' =>
      simp only [InferenceTable.inferAlong, hl, Prod.mk.injEq] at hi
      obtain ⟨rfl, he⟩ := hi
      cases he
      exact ⟨[], id, ids, rfl, k, hready, hlive, hl⟩
    | ok l =>
      rw [inferAlong_cons hl, Prod.mk.injEq] at hi
      have hrun : InferenceTable.standard.inferAlong values ids (g.setLayout id l) =
          (f, .error e) := by
        refine Prod.ext hi.1 ?_
        cases hr : (InferenceTable.standard.inferAlong values ids (g.setLayout id l)).2 with
        | ok b =>
          rw [hr] at hi
          cases hi.2
        | error e' =>
          rw [hr] at hi
          cases hi.2
          rfl
      obtain ⟨before, x, after, rfl, hdone⟩ := ih hrest (k.step hs hnew hready hl) hrun
      refine ⟨id :: before, x, after, rfl, ?_⟩
      rwa [List.reverse_cons, List.append_assoc, List.singleton_append]

theorem InferredAt.inside (k : f.InferredAt values id) (hn : f.node? id = some n)
    (hop : n.op = .crop offsets sizes) :
    ∃ a, f.Lays n.inputs [a] ∧ ∀ axis, Infer.InsideBelow a.shape.dims offsets sizes axis := by
  obtain ⟨m, ins, l, hm, hins, -, hy, -⟩ := k
  obtain rfl := Option.some.inj (hn.symm.trans hm)
  rw [hop] at hy
  cases hy with
  | @crop _ _ a ho hs hfits =>
    refine ⟨a, hins, ?_⟩
    obtain ⟨-, hin⟩ | ⟨_, _, -, ⟨-, hfalse⟩ | ⟨-, herr⟩⟩ :=
      Infer.fitsWindow_cases a.shape.dims offsets sizes
    · exact hin
    · cases hfits.symm.trans hfalse
    · cases hfits.symm.trans herr

/-- Inference infers every node, and the windows of all crops lie inside the dims that are known.
Or else it comes to a first node that has no layout, and fails there: with a fault if and only if
what the rule computes is too large, and otherwise with an error about shapes at that node. Where a
crop's window ends at a word but not inside a known dim, that is what the error says. -/
theorem Reachable.inferGraph_faults (hg : g.Reachable) {r : Result Bool}
    (hi : InferenceTable.standard.inferGraph values g = (f, r)) :
    ((∃ changed, r = .ok changed) ∧ f.Inferred values ∧
      ∀ x n offsets sizes, f.node? x = some n → n.op = .crop offsets sizes →
        ∃ a, f.Lays n.inputs [a] ∧ ∀ axis, Infer.InsideBelow a.shape.dims offsets sizes axis) ∨
    ∃ before x after n ins, f.order = before ++ x :: after ∧ (∀ y ∈ before, f.InferredAt values y) ∧
      f.node? x = some n ∧ f.Lays n.inputs ins ∧
      (∀ l, Infer.Yields (f.pattern? values n) n.op ins l → l.isValid = false) ∧
      (∀ φ, r = .error (.fault φ) ↔ Infer.Overruns (f.pattern? values n) n.op ins φ) ∧
      ((∀ φ, ¬ Infer.Overruns (f.pattern? values n) n.op ins φ) →
        ∃ cause, r = .error (.atNode n.tag n.name cause)) ∧
      ∀ offsets sizes a axis stop, n.op = .crop offsets sizes → ins = [a] →
        offsets.length = a.rank → sizes.length = a.rank →
        Infer.LeavesAt a.shape.dims offsets sizes axis stop → stop < Size.limit →
          r = .error (.atNode .crop n.name (.misfit (.windowExceeds offsets sizes a.shape))) := by
  have hs := hg.sound
  cases r with
  | ok changed =>
    obtain ⟨-, hinferred⟩ := hs.inferGraph hi
    refine .inl ⟨⟨changed, rfl⟩, hinferred, fun x n offsets sizes hn hop => ?_⟩
    exact (hinferred x (contains_iff.2 ⟨n, hn⟩)).inside hn hop
  | error e =>
    obtain ⟨before, x, after, horder, k, hready, hlive, herr⟩ :=
      inferring_of_error hs hs.ordered ⟨.refl g, by simp, by simp⟩ hi
    rw [List.append_nil] at k hready
    have hsf := k.relaid.wiring.sound hs
    obtain ⟨n, hn⟩ := contains_iff.1 (k.relaid.wiring.contains_eq x ▸ hlive)
    obtain ⟨ins, hins⟩ : ∃ ins, f.Lays n.inputs ins := exists_lays fun a ha => by
      obtain ⟨_, _, l, -, -, hl, -⟩ :=
        k.inferred a (hready a (k.relaid.wiring.symm.feeds ⟨n, hn, ha⟩))
      exact ⟨l, hl⟩
    have hcontext : InferenceTable.standard.infer ⟨f, n, values⟩ = .error e := by
      rwa [InferenceTable.inferNode, get_eq_ok.2 hn] at herr
    obtain ⟨hfault, hcause⟩ := Infer.infer_faults (c := ⟨f, n, values⟩) (hsf.takes hn) hins
    rw [inputValues?_eq, hcontext] at hfault
    refine .inr ⟨before, x, after, n, ins, k.relaid.wiring.order_eq ▸ horder,
      fun y hy => k.inferred y (List.mem_reverse.2 hy), hn, hins, fun l hy => ?_, ?_, ?_, ?_⟩
    · by_contra hv
      cases herr.symm.trans ((inferNode_eq_ok hsf hn hins).2 ⟨hy, by simpa using hv⟩)
    · simpa using hfault
    · intro hnone
      obtain ⟨φ, rfl⟩ | ⟨cause, rfl⟩ := hcause e hcontext
      · exact absurd ((hfault φ).1 rfl) (hnone φ)
      · exact ⟨cause, rfl⟩
    · rintro offsets sizes a axis stop hop rfl ho hsz hleaves hlt
      have ha : InferenceContext.input ⟨f, n, values⟩ 0 = .ok a :=
        (Infer.input_eq_ok_iff (c := ⟨f, n, values⟩) hins).2 rfl
      rw [Infer.infer_of_leavesAt hop ha ho hsz hleaves hlt] at hcontext
      cases hcontext
      rfl

/-- One value of a row of four, from `offset` on. -/
def cropSample (offset : Nat) : Graph :=
  (empty.place "x" (.input (.plain (.ofSizes [4]) .f32)) []).place "c" (.crop [offset] [1]) [0]

theorem built_cropSample (offset : Nat) : (cropSample offset).Built :=
  Built.empty.place rfl |>.place rfl

/-- Half the way to the last word, a window is reported not to lie inside the row. -/
theorem inferGraph_faults_cropSample :
    (InferenceTable.standard.inferGraph [] (cropSample (2 ^ 63))).2 =
      .error (.atNode .crop "c" (.misfit (.windowExceeds [2 ^ 63] [1] (.ofSizes [4])))) := by
  obtain ⟨⟨changed, hok⟩, -⟩ | ⟨before, x, after, n, ins, horder, -, hn, hins, hno, -, -, hcrop⟩ :=
    @Reachable.inferGraph_faults _ (cropSample (2 ^ 63)) [] (built_cropSample _).reachable _ rfl
  · cases hok
  have hbefore : before.length ≤ 1 := by
    have hlen : 2 = (before ++ x :: after).length := congrArg List.length horder
    rw [List.length_append, List.length_cons] at hlen
    omega
  obtain _ | ⟨y, _ | ⟨z, zs⟩⟩ := before
  · -- the input has its declared layout
    obtain ⟨rfl, -⟩ := List.cons.inj (horder : [0, 1] = x :: after)
    obtain rfl := Option.some.inj hn
    cases hins
    cases hno _ .input
  · obtain ⟨rfl, rfl⟩ := List.cons.inj (List.cons.inj (horder : [0, 1] = y :: x :: after)).2
    obtain rfl := Option.some.inj hn
    obtain _ | ⟨ha, _ | _⟩ := hins
    obtain rfl := Except.ok.inj ha
    exact hcrop [2 ^ 63] [1] _ 0 (2 ^ 63 + 1) rfl rfl rfl rfl
      ⟨nofun, 4, 2 ^ 63, 1, rfl, rfl, rfl, rfl, .inl (by decide)⟩ (by decide)
  · simp at hbefore

/-- At the last word it is not: where the window ends is no word. -/
theorem inferGraph_overflow_cropSample : (cropSample (2 ^ 64 - 1)).Built ∧
    (InferenceTable.standard.inferGraph [] (cropSample (2 ^ 64 - 1))).2 =
      .error (.fault .overflow) :=
  ⟨built_cropSample _, rfl⟩

end Graph
end BufferFusion
