/-!
# Double-precision words

A coordinate is kept as the 64 bits of its IEEE-754 word, so that every bit pattern survives being
sent and stored. `same` is the comparison of the standard on those words: a NaN differs from
everything and the two zeros agree.
-/
namespace AreaReplication

structure Binary64 where
  bits : UInt64
  deriving DecidableEq, Repr

namespace Binary64

def ofFloat (value : Float) : Binary64 := ⟨value.toBits⟩

def toFloat (value : Binary64) : Float := Float.ofBits value.bits

def zero : Binary64 := ⟨0⟩

def one : Binary64 := ⟨0x3ff0000000000000⟩

def infinity : Binary64 := ⟨0x7ff0000000000000⟩

def nan : Binary64 := ⟨0x7ff8000000000000⟩

def negated (value : Binary64) : Binary64 := ⟨value.bits ^^^ 0x8000000000000000⟩

def magnitude (value : Binary64) : UInt64 := value.bits &&& 0x7fffffffffffffff

def isNegative (value : Binary64) : Bool := value.bits &&& 0x8000000000000000 != 0

def isNaN (value : Binary64) : Bool := decide (0x7ff0000000000000 < value.magnitude)

def isInfinite (value : Binary64) : Bool := value.magnitude == 0x7ff0000000000000

def isFinite (value : Binary64) : Bool := decide (value.magnitude < 0x7ff0000000000000)

def isZero (value : Binary64) : Bool := value.magnitude == 0

def same (a b : Binary64) : Bool :=
  !a.isNaN && !b.isNaN && (a == b || (a.isZero && b.isZero))

end Binary64

structure Vec3 where
  x : Binary64
  y : Binary64
  z : Binary64
  deriving DecidableEq, Repr

namespace Vec3

def zero : Vec3 := ⟨.zero, .zero, .zero⟩

def same (a b : Vec3) : Bool := a.x.same b.x && a.y.same b.y && a.z.same b.z

def toList (v : Vec3) : List Binary64 := [v.x, v.y, v.z]

end Vec3

structure Quat where
  x : Binary64
  y : Binary64
  z : Binary64
  w : Binary64
  deriving DecidableEq, Repr

namespace Quat

def identity : Quat := ⟨.zero, .zero, .zero, .one⟩

def same (a b : Quat) : Bool :=
  a.x.same b.x && a.y.same b.y && a.z.same b.z && a.w.same b.w

def toList (q : Quat) : List Binary64 := [q.x, q.y, q.z, q.w]

end Quat

end AreaReplication
