/-!
# Shapes

A shape is a list of dims, some of which may stay unknown until execution.
-/
namespace BufferFusion

inductive Dim where
  | known (size : Nat)
  | unknown
  deriving DecidableEq, Repr, Inhabited

namespace Dim

def isKnown : Dim → Bool
  | known _ => true
  | unknown => false

def value? : Dim → Option Nat
  | known n => some n
  | unknown => none

def isUnit (d : Dim) : Bool := d == known 1

/-- Two views of one dim; `none` when both are known and differ. -/
def merge : Dim → Dim → Option Dim
  | known a, known b => if a = b then some (known a) else none
  | known a, unknown | unknown, known a => some (known a)
  | unknown, unknown => some unknown

def text : Dim → String
  | known n => toString n
  | unknown => "?"

@[simp] theorem value?_known (n : Nat) : (known n).value? = some n := rfl
@[simp] theorem value?_unknown : unknown.value? = none := rfl

theorem merge_comm (a b : Dim) : a.merge b = b.merge a := by
  cases a <;> cases b <;> simp only [merge]
  split <;> split <;> simp_all

end Dim

structure Shape where
  dims : List Dim
  deriving DecidableEq, Repr, Inhabited

namespace Shape

def ofSizes (sizes : List Nat) : Shape := ⟨sizes.map .known⟩

/-- The shape of a rank with nothing else known. -/
def unknowns (rank : Nat) : Shape := ⟨List.replicate rank .unknown⟩

def rank (s : Shape) : Nat := s.dims.length

def isStatic (s : Shape) : Bool := s.dims.all Dim.isKnown

/-- The sizes of a shape whose dims are all known. -/
def sizes? (s : Shape) : Option (List Nat) := s.dims.mapM Dim.value?

def insert (s : Shape) (axis : Nat) (d : Dim) : Shape := ⟨s.dims.insertIdx axis d⟩

def remove (s : Shape) (axis : Nat) : Shape := ⟨s.dims.eraseIdx axis⟩

def set (s : Shape) (axis : Nat) (d : Dim) : Shape := ⟨s.dims.set axis d⟩

def text (s : Shape) : String := "[" ++ ",".intercalate (s.dims.map Dim.text) ++ "]"

@[simp] theorem rank_ofSizes (sizes : List Nat) : (ofSizes sizes).rank = sizes.length := by
  simp [rank, ofSizes]

@[simp] theorem rank_unknowns (n : Nat) : (unknowns n).rank = n := by simp [rank, unknowns]

@[simp] theorem sizes?_ofSizes (sizes : List Nat) : (ofSizes sizes).sizes? = some sizes := by
  induction sizes with
  | nil => rfl
  | cons n ns ih =>
    simp only [sizes?, ofSizes] at ih
    simp [sizes?, ofSizes, List.mapM_cons, ih]

theorem isStatic_iff_sizes? (s : Shape) : s.isStatic = true ↔ s.sizes?.isSome = true := by
  obtain ⟨dims⟩ := s
  simp only [isStatic, sizes?]
  induction dims with
  | nil => simp
  | cons d ds ih =>
    cases d with
    | unknown => simp [Dim.isKnown]
    | known n =>
      rw [List.all_cons, List.mapM_cons]
      cases h : List.mapM Dim.value? ds <;> simp_all [Dim.isKnown]

end Shape
end BufferFusion
