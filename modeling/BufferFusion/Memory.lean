import BufferFusion.Layout.Addressing

/-!
# Memory

A memory is a row of lanes. It is read and written through layouts: the values of a tensor, in
logical row-major order, lie where the layout's addressing says.
-/
namespace BufferFusion

namespace Index

/-- The indices of position `n` in a row-major order of `dims`, with what is left of `n`. -/
def unravelFrom : List Nat → Nat → List Nat × Nat
  | [], n => ([], n)
  | d :: ds, n =>
    let (index, rest) := unravelFrom ds n
    (rest % d :: index, rest / d)

def unravel (dims : List Nat) (n : Nat) : List Nat := (unravelFrom dims n).1

theorem length_unravelFrom (dims : List Nat) (n : Nat) :
    (unravelFrom dims n).1.length = dims.length := by
  induction dims generalizing n with
  | nil => rfl
  | cons d ds ih => simp [unravelFrom, ih]

@[simp] theorem length_unravel (dims : List Nat) (n : Nat) :
    (unravel dims n).length = dims.length := length_unravelFrom dims n

/-- The row-major position of an index. -/
def ravel (index dims : List Nat) : Nat :=
  (index.zip dims).foldl (fun n (i, d) => n * d + i) 0

end Index

/-- `f` at `start`, `start + 1` and so on for `count` places, stopping at the first failure. -/
def tabulateFrom {α : Type} (f : Nat → Result α) : Nat → Nat → List α → Result (List α)
  | 0, _, done => .ok done.reverse
  | count + 1, start, done =>
    match f start with
    | .ok a => tabulateFrom f count (start + 1) (a :: done)
    | .error e => .error e

def tabulate {α : Type} (count : Nat) (f : Nat → Result α) : Result (List α) :=
  tabulateFrom f count 0 []

/-- The sizes of a layout that an execution has resolved. -/
def Layout.sizes (l : Layout) : Result (List Nat) :=
  match l.shape.sizes? with
  | some sizes => .ok sizes
  | none => .error (.unresolvedLayout l)

structure Memory where
  element : ElementType
  cells : Array Float
  deriving Inhabited

namespace Memory

def zeroed (size : Nat) (element : ElementType) : Result Memory := do
  Size.reserve 8 size
  return { element, cells := Array.replicate size 0 }

def size (m : Memory) : Nat := m.cells.size

def fetch (m : Memory) (offset : Nat) : Result Float :=
  match m.cells[offset]? with
  | some x => .ok x
  | none => .error (.outOfBounds offset m.size)

def put (m : Memory) (offset : Nat) (x : Float) : Memory :=
  { m with cells := m.cells.setIfInBounds offset x }

@[simp] theorem size_put (m : Memory) (offset : Nat) (x : Float) :
    (m.put offset x).size = m.size := by simp [put, size]

theorem cells_put (m : Memory) (offset i : Nat) (x : Float) :
    (m.put offset x).cells[i]? =
      if offset = i then (if offset < m.size then some x else none) else m.cells[i]? := by
  simp only [put, size, Array.getElem?_setIfInBounds]
  rfl

/-- The values that a layout describes. -/
def read (m : Memory) (l : Layout) : Result (List Float) := do
  let sizes ← l.sizes
  let addressing ← l.addressing
  let count ← Size.product sizes
  Size.reserve 8 count
  tabulate count fun n => do m.fetch (← addressing.offset (Index.unravel sizes n))

/-- Puts the values down from position `n` on. Those before a failure stay. -/
def writeFrom (a : Addressing) (sizes : List Nat) : Nat → List Float → Memory → Memory × Result Unit
  | _, [], m => (m, .ok ())
  | n, x :: values, m =>
    match a.offset (Index.unravel sizes n) with
    | .error e => (m, .error e)
    | .ok offset =>
      if offset < m.size then writeFrom a sizes (n + 1) values (m.put offset x)
      else (m, .error (.outOfBounds offset m.size))

theorem size_writeFrom (a : Addressing) (sizes : List Nat) (n : Nat) (values : List Float)
    (m : Memory) : (m.writeFrom a sizes n values).1.size = m.size := by
  induction values generalizing n m with
  | nil => rfl
  | cons x values ih =>
    simp only [writeFrom]
    split
    · rfl
    · split
      · rw [ih, size_put]
      · rfl

/-- Writes values through a layout. -/
def write (m : Memory) (l : Layout) (values : List Float) : Memory × Result Unit :=
  let plan : Result (List Nat × Addressing) := do
    let sizes ← l.sizes
    if values.length ≠ (← Size.product sizes) then .error (.layoutCount values.length l)
    else return (sizes, ← l.addressing)
  match plan with
  | .ok (sizes, a) => m.writeFrom a sizes 0 values
  | .error e => (m, .error e)

@[simp] theorem size_write (m : Memory) (l : Layout) (values : List Float) :
    (m.write l values).1.size = m.size := by
  simp only [write]
  split
  · exact size_writeFrom ..
  · rfl

end Memory
end BufferFusion
