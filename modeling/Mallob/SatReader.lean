import Mallob.JobDescription

namespace Mallob

open JobDescription (Call)

inductive ContentMode
  | ascii
  | raw
deriving DecidableEq

structure SatReader where
  contentMode : ContentMode
  sign : Int := 1
  comment : Bool := false
  beganNum : Bool := false
  assumption : Bool := false
  num : Int := 0
  maxVar : Int := 0
  traversingClauses : Bool := true
  traversingAssumptions : Bool := false
  emptyClause : Bool := true
  validInput : Bool := false
deriving DecidableEq

namespace SatReader

abbrev Reading : Type := SatReader × List Call

/-- The absolute value of the least int, which overflows in the source, is its magnitude here. -/
def processInt (r : SatReader) (x : CInt) (desc : List Call) : Reading :=
  if r.validInput then ({ r with validInput := false }, desc)
  else if r.emptyClause && x == 0 then
    if r.traversingClauses then ({ r with traversingClauses := false, traversingAssumptions := true }, desc)
    else if r.traversingAssumptions then ({ r with validInput := true }, desc)
    else (r, desc)
  else
    ({ r with maxVar := max r.maxVar x.toInt.natAbs, emptyClause := r.traversingAssumptions || x == 0 },
      desc ++ [if r.traversingClauses then .addLiteral x else .addAssumption x])

def isValidInput (r : SatReader) : Bool := r.contentMode != .raw || r.validInput

def readRaw (xs : List CInt) : Reading :=
  xs.foldl (fun reading x => reading.1.processInt x reading.2) ({ contentMode := .raw }, [])

inductive Fault
  | num
  | overflow
deriving DecidableEq

def newline : UInt8 := 10
def carriageReturn : UInt8 := 13
def space : UInt8 := 32
def minus : UInt8 := 45
def zero : UInt8 := 48
def letterA : UInt8 := 97
def letterC : UInt8 := 99
def letterP : UInt8 := 112

/-- The end of the file as a char. -/
def eof : UInt8 := 255

/-- A char is signed. -/
def charValue (c : UInt8) : Int := if c.toNat < 128 then c.toNat else c.toNat - 256

def isInt (x : Int) : Bool := -2 ^ 31 ≤ x && x < 2 ^ 31

def endLine (r : SatReader) (desc : List Call) : Except Fault Reading :=
  if r.beganNum then
    if r.num = 0 then
      .ok ({ r with comment := false, beganNum := false, assumption := false },
        if r.assumption then desc else desc ++ [.addLiteral 0])
    else .error .num
  else .ok ({ r with comment := false, assumption := false }, desc)

def endNumber (r : SatReader) (desc : List Call) : Except Fault Reading :=
  if r.beganNum then
    if isInt (r.sign * r.num) then
      let lit : CInt := BitVec.ofInt (8 * 4) (r.sign * r.num)
      .ok ({ r with maxVar := max r.maxVar r.num, num := 0, beganNum := false, sign := 1 },
        if r.assumption then if r.num ≠ 0 then desc ++ [.addAssumption lit] else desc else desc ++ [.addLiteral lit])
    else .error .overflow
  else .ok ({ r with sign := 1 }, desc)

def process (r : SatReader) (c : UInt8) (desc : List Call) : Except Fault Reading :=
  if r.comment && c != newline then .ok (r, desc)
  else if c = newline ∨ c = carriageReturn ∨ c = eof then r.endLine desc
  else if c = letterP ∨ c = letterC then .ok ({ r with comment := true }, desc)
  else if c = letterA then .ok ({ r with assumption := true }, desc)
  else if c = space then r.endNumber desc
  else if c = minus then .ok ({ r with sign := -1, beganNum := true }, desc)
  else
    let num := r.num * 10 + (charValue c - charValue zero)
    if isInt (r.num * 10) && isInt num then .ok ({ r with num := num, beganNum := true }, desc) else .error .overflow

def feed (reading : Reading) (cs : List UInt8) : Except Fault Reading :=
  cs.foldlM (fun reading c => reading.1.process c reading.2) reading

def readAscii (cs : List UInt8) : Except Fault Reading := feed ({ contentMode := .ascii }, []) (cs ++ [eof])

end SatReader

end Mallob
