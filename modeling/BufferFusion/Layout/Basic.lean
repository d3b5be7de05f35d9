import BufferFusion.ElementType
import BufferFusion.Shape.Basic
import BufferFusion.Format
import BufferFusion.Padding

/-!
# Layouts

Shape, element type, format and padding of a buffer. Fusion works by changing padding: a tensor
that is written into a slice of a larger buffer has the other slices as padding around it.
-/
namespace BufferFusion

structure Layout where
  shape : Shape
  element : ElementType
  format : Format
  padding : Padding
  deriving DecidableEq, Repr, Inhabited

namespace Layout

def unpadded (shape : Shape) (element : ElementType) (format : Format) : Layout :=
  ⟨shape, element, format, .zero shape.rank⟩

/-- The unpadded layout in the plain format of the shape's rank. -/
def plain (shape : Shape) (element : ElementType) : Layout :=
  unpadded shape element (.plainFor shape.rank)

def withPadding (l : Layout) (padding : Padding) : Layout := { l with padding }

def rank (l : Layout) : Nat := l.shape.rank

def isStatic (l : Layout) : Bool := l.shape.isStatic

def text (l : Layout) : String :=
  l.element.name ++ ":" ++ l.format.name ++ l.shape.text ++
    (if l.padding.isZero then "" else " pad(" ++ l.padding.text ++ ")")

end Layout
end BufferFusion
