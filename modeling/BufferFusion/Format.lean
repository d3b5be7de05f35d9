/-!
# Formats

The physical order of a buffer's elements. Plain formats are row-major; the blocked format keeps
features in blocks of sixteen, innermost.
-/
namespace BufferFusion

inductive Format where
  | bfyx
  | bfzyx
  | bfwzyx
  | blocked16
  deriving DecidableEq, Repr, Inhabited

namespace Format

def name : Format → String
  | bfyx => "bfyx"
  | bfzyx => "bfzyx"
  | bfwzyx => "bfwzyx"
  | blocked16 => "b_fs_yx_fsv16"

/-- The plain format for tensors of a rank. -/
def plainFor (rank : Nat) : Format :=
  if rank ≤ 4 then bfyx else if rank = 5 then bfzyx else bfwzyx

def maxRank : Format → Nat
  | bfyx | blocked16 => 4
  | bfzyx => 5
  | bfwzyx => 6

/-- Only `bfyx` stores tensors of less than its own rank. -/
def holdsRank (f : Format) (rank : Nat) : Bool :=
  match f with
  | bfyx => rank ≤ 4
  | _ => rank == f.maxRank

/-- The blocked axis and the size of its blocks. -/
def block? : Format → Option (Nat × Nat)
  | blocked16 => some (1, 16)
  | _ => none

def isBlocked (f : Format) : Bool := f.block?.isSome

end Format
end BufferFusion
