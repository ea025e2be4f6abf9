import Mallob.VolumeCalculator

namespace Mallob

structure Checksum where
  count : Nat := 0
  val : Nat := 0
deriving DecidableEq

namespace Checksum

open VolumeCalculator (hashInt)

/-- The hash combination, in 64-bit arithmetic. -/
def hashCombine (s : Nat) (v : Int) : Nat :=
  s ^^^ ((hashInt v + 0x9e3779b9 + s <<< 6 % 2 ^ 64 + s >>> 2) % 2 ^ 64)

def combine (c : Checksum) (x : Int) : Checksum where
  count := c.count + 1
  val := hashCombine c.val x

end Checksum

end Mallob
