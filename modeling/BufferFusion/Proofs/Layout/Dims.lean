import Mathlib.Algebra.GroupWithZero.Nat
import BufferFusion.Layout.Size
import BufferFusion.Proofs.Result

/-!
# Sums of sizes and dims

Adding is exact or an overflow: where it answers, it answers the sum, which is unknown as soon as
one of the dims is.
-/
namespace BufferFusion

namespace Size

theorem fit_onlyOverflow (n : Nat) : (fit n).OnlyOverflow := by
  intro e he
  simp only [fit, Result.fault] at he
  split at he <;> cases he
  rfl

theorem add_onlyOverflow (a b : Nat) : (add a b).OnlyOverflow := fit_onlyOverflow _

theorem mul_onlyOverflow (a b : Nat) : (mul a b).OnlyOverflow := fit_onlyOverflow _

theorem product_onlyOverflow (ns : List Nat) : (product ns).OnlyOverflow := by
  suffices ∀ a, (ns.foldlM mul a).OnlyOverflow from this 1
  induction ns with
  | nil => exact fun a => Result.onlyOverflow_pure a
  | cons n ns ih =>
    intro a
    rw [List.foldlM_cons]
    exact (mul_onlyOverflow a n).bind fun b _ => ih b

theorem reserve_eq_ok {bytes count : Nat} :
    reserve bytes count = .ok () ↔ count ≤ capacity bytes := by
  simp only [reserve, Result.fault]
  split <;> simp_all

/-- There is room, unless there is too much to hold. -/
theorem reserve_answers (bytes count : Nat) : (reserve bytes count).Answers fun _ => True := by
  rw [reserve]
  split
  · exact Result.answers_ok trivial
  · exact .inr (.inr rfl)

theorem prod_of_foldlM_mul {ns : List Nat} {a n : Nat} (h : ns.foldlM mul a = .ok n) :
    a * ns.prod = n := by
  induction ns generalizing a with
  | nil => simpa [List.foldlM, pure, Except.pure] using h
  | cons m ns ih =>
    rw [List.foldlM_cons, Result.bind_eq_ok] at h
    obtain ⟨b, hb, hn⟩ := h
    obtain ⟨rfl, -⟩ := mul_eq_ok.1 hb
    rw [List.prod_cons, ← Nat.mul_assoc, ih hn]

theorem prod_of_product {ns : List Nat} {n : Nat} (h : product ns = .ok n) : ns.prod = n := by
  simpa using prod_of_foldlM_mul h

/-- No size is zero, so no partial product is larger than the product. -/
theorem foldlM_mul_of_prod_ne_zero {ns : List Nat} {a : Nat} (hne : ns.prod ≠ 0)
    (h : a * ns.prod < limit) : ns.foldlM mul a = .ok (a * ns.prod) := by
  induction ns generalizing a with
  | nil => rw [List.prod_nil, Nat.mul_one]; rfl
  | cons m ns ih =>
    rw [List.prod_cons] at hne h ⊢
    rw [← Nat.mul_assoc] at h ⊢
    have hrest : ns.prod ≠ 0 := Nat.ne_zero_of_mul_ne_zero_right hne
    have hfits : a * m < limit :=
      Nat.lt_of_le_of_lt (Nat.le_mul_of_pos_right _ (Nat.pos_of_ne_zero hrest)) h
    exact Result.bind_eq_ok.2 ⟨a * m, mul_eq_ok.2 ⟨rfl, hfits⟩, ih hrest h⟩

/-- The sizes of a shape with elements can be multiplied where there is a word for their number. -/
theorem product_of_prod_ne_zero {ns : List Nat} (hne : ns.prod ≠ 0) (h : ns.prod < limit) :
    product ns = .ok ns.prod := by
  rw [product, foldlM_mul_of_prod_ne_zero hne (by omega), Nat.one_mul]

/-- The partial sums of what adds up to a word are words. -/
theorem sum_eq_ok {ns : List Nat} {n : Nat} : sum ns = .ok n ↔ ns.sum = n ∧ ns.sum < limit := by
  suffices ∀ a, a < limit → (ns.foldlM add a = .ok n ↔ a + ns.sum = n ∧ a + ns.sum < limit) by
    simpa [sum] using this 0 (by decide)
  induction ns with
  | nil =>
    intro a ha
    simp [pure, Except.pure, ha]
  | cons m ns ih =>
    intro a ha
    rw [List.foldlM_cons, Result.bind_eq_ok, List.sum_cons, ← Nat.add_assoc]
    constructor
    · rintro ⟨_, hadd, h⟩
      obtain ⟨rfl, hlt⟩ := add_eq_ok.1 hadd
      exact (ih _ hlt).1 h
    · rintro ⟨hn, hlt⟩
      have hadd : a + m < limit := by omega
      exact ⟨a + m, add_eq_ok.2 ⟨rfl, hadd⟩, (ih _ hadd).2 ⟨hn, hlt⟩⟩

theorem sum_onlyOverflow (ns : List Nat) : (sum ns).OnlyOverflow := by
  suffices ∀ a, (ns.foldlM add a).OnlyOverflow from this 0
  induction ns with
  | nil => exact fun a => Result.onlyOverflow_pure a
  | cons n ns ih =>
    intro a
    rw [List.foldlM_cons]
    exact (add_onlyOverflow a n).bind fun b _ => ih b

theorem sum_eq_error {ns : List Nat} (h : limit ≤ ns.sum) : sum ns = .error (.fault .overflow) := by
  cases hs : sum ns with
  | ok n => exact absurd (sum_eq_ok.1 hs).2 (Nat.not_lt.2 h)
  | error e => rw [sum_onlyOverflow ns e hs]

theorem lt_of_product {ns : List Nat} {n : Nat} (h : product ns = .ok n) : n < limit := by
  suffices ∀ a, a < limit → ns.foldlM mul a = .ok n → n < limit from this 1 (by decide) h
  clear h
  intro a ha h
  induction ns generalizing a with
  | nil =>
    obtain rfl := Except.ok.inj h
    exact ha
  | cons m ns ih =>
    rw [List.foldlM_cons, Result.bind_eq_ok] at h
    obtain ⟨b, hb, hn⟩ := h
    obtain ⟨rfl, hfits⟩ := mul_eq_ok.1 hb
    exact ih _ hfits hn

end Size

namespace Dim

/-- The exact sum of two dims. -/
def plus : Dim → Dim → Dim
  | known a, known b => known (a + b)
  | _, _ => unknown

/-- The exact sum of a list of dims. -/
def total (ds : List Dim) : Dim := ds.foldr plus (known 0)

@[simp] theorem known_plus_known (a b : Nat) : (known a).plus (known b) = known (a + b) := rfl
@[simp] theorem unknown_plus (d : Dim) : unknown.plus d = unknown := by cases d <;> rfl
@[simp] theorem plus_unknown (d : Dim) : d.plus unknown = unknown := by cases d <;> rfl
@[simp] theorem total_nil : total [] = known 0 := rfl
@[simp] theorem total_cons (d : Dim) (ds : List Dim) : total (d :: ds) = d.plus (total ds) := rfl

@[simp] theorem zero_plus (d : Dim) : (known 0).plus d = d := by cases d <;> simp
@[simp] theorem plus_zero (d : Dim) : d.plus (known 0) = d := by cases d <;> simp

theorem plus_assoc (a b c : Dim) : (a.plus b).plus c = a.plus (b.plus c) := by
  cases a <;> cases b <;> cases c <;> simp [Nat.add_assoc]

theorem plus_comm (a b : Dim) : a.plus b = b.plus a := by
  cases a <;> cases b <;> simp [Nat.add_comm]

theorem total_known (ns : List Nat) : total (ns.map known) = known ns.sum := by
  induction ns with
  | nil => rfl
  | cons n ns ih => simp [ih]

theorem plus_eq_known {a b : Dim} {n : Nat} :
    a.plus b = known n ↔ ∃ i j, a = known i ∧ b = known j ∧ i + j = n := by
  cases a <;> cases b <;> simp

theorem add_eq_ok {a b d : Dim} (h : a.add b = .ok d) : d = a.plus b := by
  cases a <;> cases b <;> try exact (Except.ok.inj h).symm
  next m n =>
    simp only [add] at h
    cases hs : Size.add m n with
    | error e => rw [hs] at h; cases h
    | ok k =>
      rw [hs] at h
      obtain ⟨rfl, -⟩ := Size.add_eq_ok.1 hs
      exact (Except.ok.inj h).symm

theorem add_onlyOverflow (a b : Dim) : (a.add b).OnlyOverflow := by
  cases a <;> cases b <;> try exact Result.onlyOverflow_ok _
  next m n => exact (Size.add_onlyOverflow m n).map _

theorem foldlM_add_eq_ok {ds : List Dim} {a d : Dim} (h : ds.foldlM add a = .ok d) :
    d = a.plus (total ds) := by
  induction ds generalizing a with
  | nil => simpa using (Except.ok.inj h).symm
  | cons e ds ih =>
    rw [List.foldlM_cons, Result.bind_eq_ok] at h
    obtain ⟨b, hb, hd⟩ := h
    rw [ih hd, add_eq_ok hb, total_cons, plus_assoc]

end Dim
end BufferFusion
