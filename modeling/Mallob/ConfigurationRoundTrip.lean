import Mallob.AppConfiguration

namespace Mallob.AppConfiguration

/-- The sum of the lengths of all items as it is made in an int. -/
def getSerializedSizeInt (config : AppConfiguration) : Int :=
  config.map.toList.foldl
    (fun size option => (size + (1 + option.1.length + 1 + option.2.length + 1 : Nat)).bmod (2 ^ 32)) 0

def configure (config : AppConfiguration) (jConfig : List (List UInt8 × List UInt8)) : AppConfiguration where
  map := jConfig.foldl (fun map option => map.insert option.1 option.2) config.map

/-- Whatever the keys and values are, an object with them gives rise to a configuration with just these. -/
theorem configure_toList (config : AppConfiguration) : configure {} config.map.toList = config := by
  rw [configure, foldl_insert_toList]

theorem foldl_bmod (n : Nat) (ns : List Nat) :
    ns.foldl (fun (size : Int) (k : Nat) => (size + k).bmod (2 ^ 32)) ((n : Int).bmod (2 ^ 32)) =
      ((n + ns.sum : Nat) : Int).bmod (2 ^ 32) := by
  induction ns generalizing n with
  | nil => rw [List.foldl_nil, List.sum_nil, Nat.add_zero]
  | cons k ns ih =>
      rw [List.foldl_cons, Int.bmod_add_bmod, ← Nat.cast_add, ih, List.sum_cons, Nat.add_assoc]

theorem getSerializedSizeInt_eq (config : AppConfiguration) :
    config.getSerializedSizeInt = (config.getSerializedSize : Int).bmod (2 ^ 32) := by
  have hsum := foldl_bmod 0 (config.map.toList.map fun option => 1 + option.1.length + 1 + option.2.length + 1)
  rw [Nat.zero_add, List.foldl_map] at hsum
  exact hsum

theorem length_eq_getSerializedSizeInt (config : AppConfiguration) :
    (config.serialize.length : Int) = config.getSerializedSizeInt ↔ config.getSerializedSize < 2 ^ 31 := by
  rw [getSerializedSizeInt_eq, length_serialize]
  constructor
  · intro h
    have hhigh := Int.bmod_lt (x := config.getSerializedSize) (m := 2 ^ 32) (by decide)
    rw [← h] at hhigh
    omega
  · intro h
    exact (Int.bmod_eq_of_le (by omega) (by omega)).symm

/-- The options are restored and the size of their text is known in advance. -/
def Restored (config : AppConfiguration) : Prop :=
  deserialize config.serialize = .ok config ∧ (config.serialize.length : Int) = config.getSerializedSizeInt

/-- A configuration is restored if and only if it is plain and its text is not too long for an int. -/
theorem restored_iff (config : AppConfiguration) :
    config.Restored ↔ config.PlainOptions ∧ config.getSerializedSize < 2 ^ 31 := by
  rw [Restored, deserialize_serialize_iff, length_eq_getSerializedSizeInt]

def signInKey : AppConfiguration := configure {} [([97, 61, 98], [99])]

def endInKey : AppConfiguration := configure {} [([97, 59, 98], [99])]

theorem not_restored : deserialize signInKey.serialize = .ok (configure {} [([97], [98, 61, 99])]) ∧
    deserialize endInKey.serialize = .error .dash ∧ ¬signInKey.Restored ∧ ¬endInKey.Restored := by
  have hsign : deserialize signInKey.serialize = .ok (configure {} [([97], [98, 61, 99])]) := by rfl
  have hend : deserialize endInKey.serialize = .error .dash := by rfl
  refine ⟨hsign, hend, ?_, ?_⟩
  · rintro ⟨h, -⟩
    rw [hsign] at h
    have hmap := congrArg (fun config => config.map[([97] : List UInt8)]?) (Except.ok.inj h)
    simp [signInKey, configure] at hmap
  · rintro ⟨h, -⟩
    rw [hend] at h
    cases h

end Mallob.AppConfiguration
