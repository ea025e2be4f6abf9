import Mallob.ByteLayout

namespace Mallob.Codecs

open ByteLayout

/-- A format of values in memory. What is read from the front of a memory are the bytes that were written. -/
structure Codec (α : Type) where
  encode : α → List UInt8
  decode : List UInt8 → Option (α × List UInt8)
  decode_eq_some : ∀ memory a rest, decode memory = some (a, rest) ↔ memory = encode a ++ rest

namespace Codec

variable {α β : Type} {n : Nat}

theorem decode_encode (c : Codec α) (a : α) (rest : List UInt8) : c.decode (c.encode a ++ rest) = some (a, rest) :=
  (c.decode_eq_some _ a rest).mpr rfl

def word (n : Nat) : Codec (BitVec (8 * n)) where
  encode := bytes
  decode := read n
  decode_eq_some := fun _ _ _ => read_eq_some

def pair (c : Codec α) (d : Codec β) : Codec (α × β) where
  encode a := c.encode a.1 ++ d.encode a.2
  decode memory := (c.decode memory).bind fun a => (d.decode a.2).map fun b => ((a.1, b.1), b.2)
  decode_eq_some := by
    intro memory a rest
    rw [Option.bind_eq_some_iff, List.append_assoc]
    constructor
    · rintro ⟨first, hfirst, h⟩
      obtain ⟨second, hsecond, heq⟩ := Option.map_eq_some_iff.mp h
      cases heq
      rw [(c.decode_eq_some memory first.1 first.2).mp hfirst, (d.decode_eq_some first.2 second.1 second.2).mp hsecond]
    · rintro rfl
      exact ⟨_, c.decode_encode _ _, Option.map_eq_some_iff.mpr ⟨_, d.decode_encode _ _, rfl⟩⟩

def restrict (c : Codec β) (f : α → β) (g : β → Option α) (h : ∀ a b, g b = some a ↔ b = f a) : Codec α where
  encode a := c.encode (f a)
  decode memory := (c.decode memory).bind fun b => (g b.1).map fun a => (a, b.2)
  decode_eq_some := by
    intro memory a rest
    rw [Option.bind_eq_some_iff]
    constructor
    · rintro ⟨stored, hstored, hmap⟩
      obtain ⟨a', ha', heq⟩ := Option.map_eq_some_iff.mp hmap
      obtain ⟨rfl, rfl⟩ := Prod.mk.inj heq
      rw [← (h a' stored.1).mp ha']
      exact (c.decode_eq_some memory stored.1 stored.2).mp hstored
    · rintro rfl
      exact ⟨_, c.decode_encode _ _, Option.map_eq_some_iff.mpr ⟨a, (h a (f a)).mpr rfl, rfl⟩⟩

def record (c : Codec β) (fields : α → β) (make : β → α) (hmake : ∀ a, make (fields a) = a)
    (hfields : ∀ b, fields (make b) = b) : Codec α :=
  c.restrict fields (fun b => some (make b)) fun a b => by
    rw [Option.some.injEq]
    constructor
    · rintro rfl
      exact (hfields b).symm
    · rintro rfl
      exact hmake a

def Sized (c : Codec α) (n : Nat) : Prop := ∀ a, (c.encode a).length = n

theorem sized_word (n : Nat) : (word n).Sized n := length_bytes

theorem Sized.pair {c : Codec α} {d : Codec β} {m : Nat} (hc : c.Sized n) (hd : d.Sized m) :
    (c.pair d).Sized (n + m) := by
  intro a
  rw [Codec.pair, List.length_append, hc, hd]

theorem Sized.restrict {c : Codec β} (hc : c.Sized n) (f : α → β) (g : β → Option α)
    (h : ∀ a b, g b = some a ↔ b = f a) : (c.restrict f g h).Sized n := fun a => hc (f a)

theorem Sized.record {c : Codec β} (hc : c.Sized n) {fields : α → β} {make : β → α} (hmake : ∀ a, make (fields a) = a)
    (hfields : ∀ b, fields (make b) = b) : (record c fields make hmake hfields).Sized n := hc.restrict _ _ _

/-- The values at the front of a memory are taken one after the other, each from its own bytes, and what is shorter than
a value is left. -/
def foldMany (c : Codec α) (n : Nat) (f : β → α → β) : Nat → List UInt8 → β → Option β
  | 0, _, b => some b
  | fuel + 1, memory, b =>
      if n ≤ memory.length then
        match c.decode (memory.take n) with
        | none => none
        | some (a, _) => c.foldMany n f fuel (memory.drop n) (f b a)
      else some b

theorem foldMany_encode {c : Codec α} (hsized : c.Sized n) (f : β → α → β) {fuel : Nat} {values : List α}
    {rest : List UInt8} (hrest : rest.length < n) {b : β} (hfuel : values.length ≤ fuel) :
    c.foldMany n f fuel (values.flatMap c.encode ++ rest) b = some (values.foldl f b) := by
  induction values generalizing fuel b with
  | nil =>
      cases fuel with
      | zero => rfl
      | succ fuel => rw [List.flatMap_nil, List.nil_append, foldMany, if_neg (not_le.mpr hrest), List.foldl_nil]
  | cons a values ih =>
      cases fuel with
      | zero => cases hfuel
      | succ fuel =>
          have hlength : (c.encode a).length = n := hsized a
          have hdecode := c.decode_encode a []
          rw [List.append_nil] at hdecode
          rw [List.flatMap_cons, List.append_assoc, foldMany, if_pos (by rw [List.length_append]; omega),
            List.take_left' hlength, List.drop_left' hlength, hdecode]
          exact ih (Nat.le_of_succ_le_succ hfuel)

theorem foldMany_eq_some {c : Codec α} (hsized : c.Sized n) {f : β → α → β} {fuel : Nat} {memory : List UInt8}
    {b b' : β} (hfuel : memory.length < fuel) (hpos : 0 < n) (h : c.foldMany n f fuel memory b = some b') :
    ∃ (values : List α) (rest : List UInt8), rest.length < n ∧ memory = values.flatMap c.encode ++ rest ∧
      b' = values.foldl f b := by
  induction fuel generalizing memory b with
  | zero => cases hfuel
  | succ fuel ih =>
      rw [foldMany] at h
      split at h
      · next hlong =>
          split at h
          · cases h
          · next a rest hdecode =>
              have hfront := (c.decode_eq_some _ a rest).mp hdecode
              have hlength := congrArg List.length hfront
              rw [List.length_append, hsized, List.length_take_of_le hlong] at hlength
              obtain rfl : rest = [] := List.eq_nil_of_length_eq_zero (by omega)
              obtain ⟨values, last, hlast, hmemory, hb'⟩ := ih (by rw [List.length_drop]; omega) h
              refine ⟨a :: values, last, hlast, ?_, hb'⟩
              rw [List.append_nil] at hfront
              rw [List.flatMap_cons, List.append_assoc, ← hmemory, ← hfront, List.take_append_drop]
      · next hshort =>
          exact ⟨[], memory, not_le.mp hshort, rfl, (Option.some.inj h).symm⟩

end Codec

end Mallob.Codecs
