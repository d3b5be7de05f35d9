import BufferFusion.Memory
import BufferFusion.Proofs.Layout.Position

/-!
# Row-major order

The entries of a table are the values of its function, and the positions of a box are those of its
indices: `unravel` finds the index at a position.
-/
namespace BufferFusion

variable {α : Type} {f f' : Nat → Result α} {count start : Nat} {done xs : List α}

theorem tabulateFrom_eq_ok : tabulateFrom f count start done = .ok xs ↔
    ∃ ys, xs = done.reverse ++ ys ∧ ys.length = count ∧
      ∀ n y, ys[n]? = some y → f (start + n) = .ok y := by
  induction count generalizing start done with
  | zero =>
    simp only [tabulateFrom, Except.ok.injEq]
    constructor
    · rintro rfl
      exact ⟨[], by simp, rfl, by simp⟩
    · rintro ⟨ys, rfl, hlen, -⟩
      simp [List.eq_nil_of_length_eq_zero hlen]
  | succ count ih =>
    rw [tabulateFrom]
    cases hf : f start with
    | error e =>
      refine ⟨by nofun, ?_⟩
      rintro ⟨ys, -, hlen, hall⟩
      obtain _ | ⟨y, ys⟩ := ys
      · cases hlen
      · have := hall 0 y rfl
        rw [Nat.add_zero, hf] at this
        cases this
    | ok a =>
      simp only [ih, List.reverse_cons, List.append_assoc, List.singleton_append]
      constructor
      · rintro ⟨ys, rfl, rfl, hall⟩
        refine ⟨a :: ys, rfl, rfl, fun n y hy => ?_⟩
        cases n with
        | zero =>
          obtain rfl := Option.some.inj hy
          exact hf
        | succ n =>
          rw [← Nat.add_assoc, Nat.add_right_comm]
          exact hall n y hy
      · rintro ⟨ys, rfl, hlen, hall⟩
        obtain _ | ⟨y, ys⟩ := ys
        · cases hlen
        have hy := hall 0 y rfl
        rw [Nat.add_zero, hf] at hy
        obtain rfl := Except.ok.inj hy
        refine ⟨ys, rfl, by simpa using hlen, fun n z hz => ?_⟩
        rw [Nat.add_right_comm, Nat.add_assoc]
        exact hall (n + 1) z hz

theorem tabulate_eq_ok : tabulate count f = .ok xs ↔
    xs.length = count ∧ ∀ n x, xs[n]? = some x → f n = .ok x := by
  simp [tabulate, tabulateFrom_eq_ok]

/-- A function that always answers has a table. -/
theorem tabulate_ok (h : ∀ n, n < count → ∃ a, f n = .ok a) : ∃ xs, tabulate count f = .ok xs := by
  choose a ha using h
  refine ⟨List.ofFn fun i : Fin count => a i i.isLt, tabulate_eq_ok.2 ⟨by simp, fun n x hx => ?_⟩⟩
  obtain ⟨hn, rfl⟩ := List.getElem?_eq_some_iff.1 hx
  rw [List.getElem_ofFn]
  exact ha n (by simpa using hn)

namespace Index

open Addressing

variable {dims index : List Nat} {n : Nat}

theorem ravel_eq_position (h : index.length = dims.length) : ravel index dims = position index dims := by
  suffices ∀ a, (index.zip dims).foldl (fun n q => n * q.2 + q.1) a =
      a * dims.prod + position index dims by
    have := this 0
    rwa [Nat.zero_mul, Nat.zero_add] at this
  induction index generalizing dims with
  | nil =>
    obtain rfl := List.eq_nil_of_length_eq_zero h.symm
    simp [position]
  | cons i index ih =>
    obtain _ | ⟨d, dims⟩ := dims
    · cases h
    intro a
    rw [List.zip_cons_cons, List.foldl_cons, ih (by simpa using h), position, List.prod_cons,
      Nat.add_mul, Nat.mul_assoc, Nat.add_assoc]

theorem position_eq_foldl (h : index.length = dims.length) :
    position index dims = (index.zip dims).foldl (fun n q => n * q.2 + q.1) 0 :=
  (ravel_eq_position h).symm

/-- A position is that of its index, with what is left counting whole boxes. -/
theorem position_unravelFrom (dims : List Nat) (n : Nat) :
    position (unravelFrom dims n).1 dims + dims.prod * (unravelFrom dims n).2 = n := by
  induction dims generalizing n with
  | nil => simp [unravelFrom, position]
  | cons d dims ih =>
    have hrest := ih n
    have hdiv := Nat.div_add_mod (unravelFrom dims n).2 d
    simp only [unravelFrom, position, List.prod_cons]
    rw [Nat.mul_comm d, Nat.mul_assoc]
    generalize (unravelFrom dims n).2 = q at hrest hdiv ⊢
    have hmul : dims.prod * q = dims.prod * (d * (q / d)) + q % d * dims.prod := by
      rw [Nat.mul_comm (q % d), ← Nat.mul_add, hdiv]
    omega

theorem unravelFrom_lt (h : ∀ d ∈ dims, 0 < d) (n : Nat) :
    List.Forall₂ (· < ·) (unravelFrom dims n).1 dims := by
  induction dims with
  | nil => exact .nil
  | cons d dims ih =>
    rw [List.forall_mem_cons] at h
    exact .cons (Nat.mod_lt _ h.1) (ih h.2)

theorem unravel_lt (h : n < dims.prod) : List.Forall₂ (· < ·) (unravel dims n) dims := by
  refine unravelFrom_lt (fun d hd => Nat.pos_of_ne_zero ?_) n
  rintro rfl
  rw [Nat.eq_zero_of_zero_dvd (List.dvd_prod hd)] at h
  exact absurd h (Nat.not_lt_zero n)

theorem position_unravel (h : n < dims.prod) : position (unravel dims n) dims = n := by
  have hsplit := position_unravelFrom dims n
  have hle : dims.prod * (unravelFrom dims n).2 ≤ n := by omega
  have hzero : (unravelFrom dims n).2 = 0 := by
    by_contra hne
    have := Nat.le_mul_of_pos_right dims.prod (Nat.pos_of_ne_zero hne)
    omega
  rwa [hzero, Nat.mul_zero, Nat.add_zero] at hsplit

theorem unravel_position (h : List.Forall₂ (· < ·) index dims) :
    unravel dims (position index dims) = index :=
  position_injective (unravel_lt (position_lt h)) h (position_unravel (position_lt h))

end Index
end BufferFusion
