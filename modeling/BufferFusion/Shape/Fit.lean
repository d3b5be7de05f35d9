import BufferFusion.Size

/-!
# Fitting a shape to a format

A format stores tensors of its own rank. Lower ranks gain unit dims at axis 2, or at the end of a
shorter shape; higher ranks drop unit dims from axis 2.
-/
namespace BufferFusion.Shape

def widen : Nat → Shape → Shape
  | 0, s => s
  | n + 1, s => widen n (s.insert (min s.rank 2) (.known 1))

def narrow (format : Format) : Nat → Shape → Result Shape
  | 0, s => .ok s
  | n + 1, s =>
    match (s.dims[2]? : Option Dim) with
    | some (.known 1) => narrow format n (s.remove 2)
    | some d => .error (.misfit (.cannotDrop d s format))
    | none => Result.fault .outOfRange

/-- The rank that a shape of rank `rank` takes in a format. -/
def fittedRank (format : Format) (rank : Nat) : Nat :=
  match format with
  | .bfyx => min rank 4
  | _ => format.maxRank

/-- The shape in the rank that the format stores. -/
def fit (s : Shape) (format : Format) : Result Shape :=
  let target := fittedRank format s.rank
  if s.rank < target then .ok (widen (target - s.rank) s)
  else narrow format (s.rank - target) s

end BufferFusion.Shape
