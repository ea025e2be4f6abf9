import Mathlib

namespace Mallob.ByteLayout

variable {n : Nat}

/-- The bytes of a value of a fixed size, the lowest one first. -/
def split : Nat → Nat → List UInt8
  | 0, _ => []
  | n + 1, x => UInt8.ofNat x :: split n (x / 256)

def join (bytes : List UInt8) : Nat := bytes.foldr (fun byte value => byte.toNat + 256 * value) 0

@[simp] theorem length_split (n x : Nat) : (split n x).length = n := by
  induction n generalizing x with
  | zero => rfl
  | succ n ih => rw [split, List.length_cons, ih]

theorem join_split (n x : Nat) : join (split n x) = x % 256 ^ n := by
  induction n generalizing x with
  | zero => rw [pow_zero, Nat.mod_one, split, join, List.foldr_nil]
  | succ n ih =>
      have hrest := ih (x / 256)
      rw [join] at hrest
      have hsucc : x % 256 ^ (n + 1) = x % 256 + 256 * (x / 256 % 256 ^ n) := by rw [pow_succ', Nat.mod_mul]
      rw [split, join, List.foldr_cons, hrest, UInt8.toNat_ofNat', hsucc]

theorem split_join (bytes : List UInt8) : split bytes.length (join bytes) = bytes := by
  induction bytes with
  | nil => rfl
  | cons byte bytes ih =>
      have hbyte : byte.toNat < 256 := byte.toNat_lt
      have hrest : join (byte :: bytes) / 256 = join bytes := by
        rw [join, List.foldr_cons, Nat.add_mul_div_left _ _ (by decide), Nat.div_eq_of_lt hbyte, Nat.zero_add, join]
      have hfirst : UInt8.ofNat (join (byte :: bytes)) = byte := by
        apply UInt8.toNat_inj.mp
        rw [UInt8.toNat_ofNat', join, List.foldr_cons, Nat.add_mul_mod_self_left, Nat.mod_eq_of_lt hbyte]
      rw [List.length_cons, split, hrest, ih, hfirst]

theorem pow_256 (n : Nat) : 256 ^ n = 2 ^ (8 * n) := by
  rw [pow_mul]
  norm_num

def bytes (x : BitVec (8 * n)) : List UInt8 := split n x.toNat

def ofBytes (n : Nat) (memory : List UInt8) : BitVec (8 * n) := BitVec.ofNat (8 * n) (join memory)

@[simp] theorem length_bytes (x : BitVec (8 * n)) : (bytes x).length = n := length_split n x.toNat

theorem ofBytes_bytes (x : BitVec (8 * n)) : ofBytes n (bytes x) = x := by
  apply BitVec.eq_of_toNat_eq
  rw [ofBytes, bytes, join_split, pow_256, BitVec.toNat_ofNat, Nat.mod_mod, Nat.mod_eq_of_lt x.isLt]

theorem bytes_ofBytes {memory : List UInt8} (h : memory.length = n) : bytes (ofBytes n memory) = memory := by
  subst h
  have hlt : join memory < 2 ^ (8 * memory.length) := by
    have hjoin := join_split memory.length (join memory)
    rw [split_join, pow_256] at hjoin
    rw [hjoin]
    exact Nat.mod_lt _ (by positivity)
  rw [bytes, ofBytes, BitVec.toNat_ofNat, Nat.mod_eq_of_lt hlt, split_join]

def read (n : Nat) (memory : List UInt8) : Option (BitVec (8 * n) × List UInt8) :=
  if n ≤ memory.length then some (ofBytes n (memory.take n), memory.drop n) else none

theorem drop_bytes (x : BitVec (8 * n)) (rest : List UInt8) (k : Nat) :
    (bytes x ++ rest).drop (n + k) = rest.drop k := by
  rw [← List.drop_drop, List.drop_append_of_le_length (length_bytes x).ge, List.drop_of_length_le (length_bytes x).le,
    List.nil_append]

theorem read_bytes (x : BitVec (8 * n)) (rest : List UInt8) : read n (bytes x ++ rest) = some (x, rest) := by
  have htake : (bytes x ++ rest).take n = bytes x := by
    rw [List.take_append_of_le_length (length_bytes x).ge, List.take_of_length_le (length_bytes x).le]
  have hdrop : (bytes x ++ rest).drop n = rest := drop_bytes x rest 0
  rw [read, if_pos (by simp), htake, hdrop, ofBytes_bytes]

theorem read_eq_some {memory rest : List UInt8} {x : BitVec (8 * n)} :
    read n memory = some (x, rest) ↔ memory = bytes x ++ rest := by
  refine ⟨fun h => ?_, fun h => h ▸ read_bytes x rest⟩
  rw [read] at h
  split at h
  · next hlength =>
      obtain ⟨hx, hrest⟩ := Prod.mk.inj (Option.some.inj h)
      rw [← hx, ← hrest, bytes_ofBytes (by rw [List.length_take]; omega), List.take_append_drop]
  · cases h

def arrayBytes (xs : List (BitVec (8 * n))) : List UInt8 := xs.flatMap bytes

@[simp] theorem arrayBytes_nil : arrayBytes ([] : List (BitVec (8 * n))) = [] := rfl

@[simp] theorem arrayBytes_cons (x : BitVec (8 * n)) (xs : List (BitVec (8 * n))) :
    arrayBytes (x :: xs) = bytes x ++ arrayBytes xs := rfl

@[simp] theorem arrayBytes_append (xs ys : List (BitVec (8 * n))) :
    arrayBytes (xs ++ ys) = arrayBytes xs ++ arrayBytes ys := List.flatMap_append

@[simp] theorem length_arrayBytes (xs : List (BitVec (8 * n))) : (arrayBytes xs).length = n * xs.length := by
  induction xs with
  | nil => simp
  | cons x xs ih => rw [arrayBytes_cons, List.length_append, ih, length_bytes, List.length_cons, Nat.mul_succ, add_comm]

def readArray (n : Nat) : Nat → List UInt8 → Option (List (BitVec (8 * n)))
  | 0, _ => some []
  | count + 1, memory =>
      match read n memory with
      | none => none
      | some (x, rest) => (readArray n count rest).map (x :: ·)

theorem readArray_eq_some {count : Nat} {memory : List UInt8} {xs : List (BitVec (8 * n))} :
    readArray n count memory = some xs ↔ xs.length = count ∧ arrayBytes xs <+: memory := by
  induction count generalizing memory xs with
  | zero =>
      rw [readArray, Option.some.injEq, List.length_eq_zero_iff]
      constructor
      · rintro rfl
        exact ⟨rfl, List.nil_prefix⟩
      · rintro ⟨rfl, -⟩
        rfl
  | succ count ih =>
      constructor
      · intro h
        rw [readArray] at h
        split at h
        · cases h
        · next x rest hread =>
            obtain ⟨ys, hys, rfl⟩ := Option.map_eq_some_iff.mp h
            obtain ⟨hlength, hstarts⟩ := ih.mp hys
            rw [read_eq_some.mp hread, List.length_cons, hlength, arrayBytes_cons]
            exact ⟨rfl, (List.prefix_append_right_inj _).mpr hstarts⟩
      · rintro ⟨hlength, hstarts⟩
        cases xs with
        | nil => cases hlength
        | cons x xs =>
            obtain ⟨rest, rfl⟩ := hstarts
            have hxs : readArray n count (arrayBytes xs ++ rest) = some xs :=
              ih.mpr ⟨Nat.succ.inj hlength, List.prefix_append _ _⟩
            rw [arrayBytes_cons, List.append_assoc, readArray, read_bytes]
            simp only [hxs, Option.map_some]

theorem arrayBytes_inj {xs ys : List (BitVec (8 * n))} (hlength : xs.length = ys.length)
    (h : arrayBytes xs = arrayBytes ys) : xs = ys := by
  have hread : ∀ zs : List (BitVec (8 * n)), readArray n zs.length (arrayBytes zs) = some zs :=
    fun zs => readArray_eq_some.mpr ⟨rfl, List.prefix_refl _⟩
  have hxs := hread xs
  have hys := hread ys
  rw [← h, ← hlength] at hys
  exact Option.some.inj (hxs.symm.trans hys)

end Mallob.ByteLayout
