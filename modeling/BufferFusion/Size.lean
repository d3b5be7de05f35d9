import BufferFusion.Error

/-!
# Sizes

Sizes, offsets and counts are 64-bit words. Arithmetic on them is exact or a fault; main statement
of each operation: where it answers, it answers what `Nat` says.
-/
namespace BufferFusion.Size

def limit : Nat := UInt64.size

def fit (n : Nat) : Result Nat := if n < limit then .ok n else Result.fault .overflow

def add (a b : Nat) : Result Nat := fit (a + b)

def mul (a b : Nat) : Result Nat := fit (a * b)

def sub (a b : Nat) : Result Nat := if b ≤ a then .ok (a - b) else Result.fault .underflow

/-- The sum from the left; every partial sum has to fit. -/
def sum (ns : List Nat) : Result Nat := ns.foldlM add 0

/-- The product from the left; every partial product has to fit, also where a zero follows. -/
def product (ns : List Nat) : Result Nat := ns.foldlM mul 1

/-- Most elements of `bytes` bytes that one allocation can have. -/
def capacity (bytes : Nat) : Nat := (UInt64.size / 2 - 1) / bytes

/-- Room for `count` elements of `bytes` bytes. -/
def reserve (bytes count : Nat) : Result Unit :=
  if count ≤ capacity bytes then .ok () else Result.fault .capacity

theorem fit_eq_ok {n m : Nat} : fit n = .ok m ↔ n = m ∧ n < limit := by
  simp only [fit, Result.fault]
  split
  · simp_all
  · simp_all
    omega

theorem add_eq_ok {a b n : Nat} : add a b = .ok n ↔ a + b = n ∧ a + b < limit := fit_eq_ok

theorem mul_eq_ok {a b n : Nat} : mul a b = .ok n ↔ a * b = n ∧ a * b < limit := fit_eq_ok

theorem sub_eq_ok {a b n : Nat} : sub a b = .ok n ↔ a = b + n := by
  simp only [sub, Result.fault]
  split
  · simp only [Except.ok.injEq]; omega
  · simp only [reduceCtorEq, false_iff]; omega

end BufferFusion.Size
