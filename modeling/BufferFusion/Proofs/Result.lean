import Mathlib.Data.List.Forall2
import BufferFusion.Error

/-!
# Results

Steps that can only fail because a size does not fit, and lists taken through a step one by one.
`Answers` says what a step answers where nothing is too large.
-/
namespace BufferFusion

/-- The only thing that can go wrong is that a size does not fit. -/
def Result.OnlyOverflow {α : Type} (x : Result α) : Prop :=
  ∀ e, x = .error e → e = .fault .overflow

namespace Result

variable {α β : Type} {x : Result α} {f : α → Result β}

theorem onlyOverflow_ok (a : α) : OnlyOverflow (.ok a) := by simp [OnlyOverflow]

theorem onlyOverflow_pure (a : α) : OnlyOverflow (pure a) := onlyOverflow_ok a

theorem OnlyOverflow.bind (hx : x.OnlyOverflow) (hf : ∀ a, x = .ok a → (f a).OnlyOverflow) :
    (x >>= f).OnlyOverflow := by
  cases x with
  | error e =>
    intro e' he
    cases he
    exact hx e rfl
  | ok a => exact hf a rfl

theorem OnlyOverflow.map (hx : x.OnlyOverflow) (f : α → β) : (f <$> x).OnlyOverflow := by
  cases x with
  | error e =>
    intro e' he
    cases he
    exact hx e rfl
  | ok a => exact onlyOverflow_ok (f a)

theorem map_eq_ok {f : α → β} {b : β} : f <$> x = .ok b ↔ ∃ a, x = .ok a ∧ f a = b := by
  cases x <;> simp [Functor.map, Except.map]

/-- A sequence of two steps answers the same wherever each of the two does. -/
theorem bind_mono {x' : Result α} {f' : α → Result β} {b : β}
    (hx : ∀ a, x = .ok a → x' = .ok a) (hf : ∀ a, f a = .ok b → f' a = .ok b)
    (h : (x >>= f) = .ok b) : (x' >>= f') = .ok b := by
  obtain ⟨a, ha, h⟩ := bind_eq_ok.1 h
  exact bind_eq_ok.2 ⟨a, hx a ha, hf a h⟩

/-- A sequence of two steps fails where the first one does, or else the second. -/
theorem bind_eq_error {e : Error} :
    (x >>= f) = .error e ↔ x = .error e ∨ ∃ a, x = .ok a ∧ f a = .error e := by
  cases x <;> simp [bind, Except.bind]

/-- What does not overflow answers. -/
theorem OnlyOverflow.eq_ok (hx : x.OnlyOverflow) (h : x ≠ .error (.fault .overflow)) :
    ∃ a, x = .ok a := by
  cases x with
  | error e => exact absurd (by rw [hx e rfl]) h
  | ok a => exact ⟨a, rfl⟩

theorem onlyOverflow_entry {o : Option α} (h : o.isSome = true) : (entry o).OnlyOverflow := by
  obtain ⟨a, rfl⟩ := Option.isSome_iff_exists.1 h
  exact onlyOverflow_ok a

/-- Taking a list through a step answers with the list of the step's answers. -/
theorem mapM_eq_ok {f : α → Result β} {xs : List α} {ys : List β} :
    xs.mapM f = .ok ys ↔ List.Forall₂ (fun x y => f x = .ok y) xs ys := by
  induction xs generalizing ys with
  | nil => simp [pure, Except.pure, eq_comm]
  | cons x xs ih =>
    rw [List.mapM_cons, bind_eq_ok]
    constructor
    · rintro ⟨y, hy, h⟩
      obtain ⟨rest, hrest, h⟩ := bind_eq_ok.1 h
      obtain rfl := Except.ok.inj h
      exact .cons hy (ih.1 hrest)
    · rintro (_ | ⟨hy, hrest⟩)
      exact ⟨_, hy, bind_eq_ok.2 ⟨_, ih.2 hrest, rfl⟩⟩

theorem exists_of_mem_mapM {f : α → Result β} {xs : List α} {ys : List β} (h : xs.mapM f = .ok ys)
    {y : β} (hy : y ∈ ys) : ∃ x ∈ xs, f x = .ok y := by
  have hall := mapM_eq_ok.1 h
  obtain ⟨i, hi, rfl⟩ := List.mem_iff_getElem.1 hy
  have hi' : i < xs.length := hall.length_eq ▸ hi
  exact ⟨xs[i], List.getElem_mem hi', hall.get hi' hi⟩

theorem exists_mapM {f : α → Result β} {xs : List α} (h : ∀ x ∈ xs, ∃ y, f x = .ok y) :
    ∃ ys, xs.mapM f = .ok ys := by
  induction xs with
  | nil => exact ⟨[], mapM_eq_ok.2 .nil⟩
  | cons x xs ih =>
    rw [List.forall_mem_cons] at h
    obtain ⟨y, hy⟩ := h.1
    obtain ⟨ys, hys⟩ := ih h.2
    exact ⟨y :: ys, mapM_eq_ok.2 (.cons hy (mapM_eq_ok.1 hys))⟩

/-- A list is gone through where every element passes. -/
theorem forM_eq_ok {f : α → Result Unit} {xs : List α} :
    xs.forM f = .ok () ↔ ∀ x ∈ xs, f x = .ok () := by
  induction xs with
  | nil => simp [List.forM, pure, Except.pure]
  | cons x xs ih =>
    rw [show (x :: xs).forM f = (f x >>= fun _ => xs.forM f) from rfl, bind_eq_ok]
    simp only [ih, List.mem_cons, forall_eq_or_imp]
    constructor
    · rintro ⟨⟨⟩, hx, hxs⟩
      exact ⟨hx, hxs⟩
    · rintro ⟨hx, hxs⟩
      exact ⟨(), hx, hxs⟩

/-- Going through a list fails where one of its elements does. -/
theorem exists_of_forM_eq_error {f : α → Result Unit} {xs : List α} {e : Error}
    (h : xs.forM f = .error e) : ∃ x ∈ xs, f x = .error e := by
  induction xs with
  | nil => cases h
  | cons x xs ih =>
    obtain hx | ⟨_, -, hxs⟩ := bind_eq_error.1 h
    · exact ⟨x, List.mem_cons_self, hx⟩
    · obtain ⟨y, hy, hye⟩ := ih hxs
      exact ⟨y, List.mem_cons_of_mem _ hy, hye⟩

theorem mapM_onlyOverflow {f : α → Result β} {xs : List α} (h : ∀ x ∈ xs, (f x).OnlyOverflow) :
    (xs.mapM f).OnlyOverflow := by
  induction xs with
  | nil => exact onlyOverflow_pure []
  | cons x xs ih =>
    rw [List.mapM_cons]
    refine (h x List.mem_cons_self).bind fun _ _ => ?_
    refine (ih fun y hy => h y (List.mem_cons_of_mem _ hy)).bind fun _ _ => ?_
    exact onlyOverflow_pure _

/-- The answer is as `P` says, unless a size does not fit a word or an allocation. -/
def Answers (x : Result α) (P : α → Prop) : Prop :=
  (∃ a, x = .ok a ∧ P a) ∨ x = .error (.fault .overflow) ∨ x = .error (.fault .capacity)

variable {P : α → Prop} {Q : β → Prop}

theorem answers_ok {a : α} (h : P a) : Answers (.ok a) P := .inl ⟨a, rfl, h⟩

theorem Answers.bind (hx : x.Answers P) (hf : ∀ a, x = .ok a → P a → (f a).Answers Q) :
    (x >>= f).Answers Q := by
  obtain ⟨a, rfl, ha⟩ | rfl | rfl := hx
  · exact hf a rfl ha
  · exact .inr (.inl rfl)
  · exact .inr (.inr rfl)

theorem Answers.mono {P' : α → Prop} (hx : x.Answers P) (h : ∀ a, x = .ok a → P a → P' a) :
    x.Answers P' := by
  obtain ⟨a, rfl, ha⟩ | hx := hx
  · exact answers_ok (h a rfl ha)
  · exact .inr hx

theorem OnlyOverflow.answers (hx : x.OnlyOverflow) : x.Answers fun _ => True := by
  cases x with
  | error e => exact .inr (.inl (by rw [hx e rfl]))
  | ok a => exact answers_ok trivial

theorem mapM_answers {R : α → β → Prop} {xs : List α} (h : ∀ x ∈ xs, (f x).Answers (R x)) :
    (xs.mapM f).Answers (List.Forall₂ R xs) := by
  induction xs with
  | nil => exact answers_ok .nil
  | cons x xs ih =>
    rw [List.forall_mem_cons] at h
    rw [List.mapM_cons]
    refine h.1.bind fun y _ hy => (ih h.2).bind fun ys _ hys => ?_
    exact answers_ok (.cons hy hys)

end Result

end BufferFusion
