import Mallob.MessageQueue

namespace Mallob.MessageQueue

open SignificantBits

theorem int32_eq {x : Int} (hlow : -2 ^ 31 ≤ x) (hhigh : x < 2 ^ 31) : int32 x = x := by
  rw [int32]
  exact Int.bmod_eq_of_le (by norm_num; omega) (by norm_num; omega)

theorem int32_range (x : Int) : -2 ^ 31 ≤ int32 x ∧ int32 x < 2 ^ 31 := by
  have hlow := Int.le_bmod (x := x) (m := 2 ^ 32) (by norm_num)
  have hhigh := Int.bmod_lt (x := x) (m := 2 ^ 32) (by norm_num)
  rw [int32]
  norm_num at hlow hhigh ⊢
  omega

theorem sizeT_natCast {x : Nat} (h : x < 2 ^ 64) : sizeT x = x := by
  rw [sizeT]
  omega

/-- An offset read back as a size is the product only when it fits an int. -/
theorem sizeT_int32_eq_iff {x : Nat} (h : x < 2 ^ 62) : sizeT (int32 x) = x ↔ x < 2 ^ 31 := by
  constructor
  · intro heq
    have hrange := int32_range x
    rw [sizeT] at heq
    omega
  · intro hlt
    rw [int32_eq (by omega) (by omega), sizeT_natCast (by omega)]

theorem totalNumBatches_lt (id : Int) (data : List UInt8) (maxMsgSize : Int) :
    (SendHandle.create id data maxMsgSize).totalNumBatches < 2 ^ 31 := by
  rw [SendHandle.create]
  simp only
  split
  · decide
  · rw [intOfFloat]
    split <;> omega

section Handle

variable {id : Int} {data : List UInt8} {b : Nat} {h : SendHandle}

structure Batched (h : SendHandle) (b : Nat) : Prop where
  batched : 1 < h.totalNumBatches
  total : h.totalNumBatches < 2 ^ 31
  size : h.sizePerBatch = b
  positive : 0 < b
  bound : b < 2 ^ 31

theorem Batched.range_eq (hb : Batched h b) {i : Nat} (hi : (i : Int) < h.totalNumBatches) :
    { h with sentBatches := i }.range = (sizeT (int32 (i * b : Nat)), min h.data.length ((i + 1) * b)) := by
  have hbatched := hb.batched
  have htotal := hb.total
  have hbound := hb.bound
  have hprod : (i + 1) * b < 2 ^ 31 * 2 ^ 31 :=
    Nat.mul_lt_mul_of_le_of_lt (by omega) hbound (by norm_num)
  have hnext : sizeT (int32 ((i : Int) + 1)) = i + 1 := by
    rw [int32_eq (by omega) (by omega)]
    exact_mod_cast sizeT_natCast (x := i + 1) (by omega)
  rw [SendHandle.range, if_pos (by simpa [SendHandle.isBatched] using hbatched)]
  simp only [hb.size, hnext]
  rw [sizeT_natCast (by omega), Nat.mod_eq_of_lt (by omega), Nat.cast_mul]

structure Exact (h : SendHandle) (b : Nat) : Prop where
  offsets : (h.totalNumBatches - 1) * b < 2 ^ 31
  below : (h.totalNumBatches - 1) * b < h.data.length
  reaches : h.data.length ≤ h.totalNumBatches * b

theorem Batched.exact_range (hb : Batched h b) (he : Exact h b) {i : Nat} (hi : (i : Int) < h.totalNumBatches) :
    { h with sentBatches := i }.range = (i * b, min h.data.length ((i + 1) * b)) ∧ i * b < h.data.length := by
  have hle : (i * b : Int) ≤ (h.totalNumBatches - 1) * b := mul_le_mul_of_nonneg_right (by omega) (by omega)
  have hoffsets := he.offsets
  have hbelow := he.below
  have hsmall : i * b < 2 ^ 31 := by
    zify
    omega
  refine ⟨?_, ?_⟩
  · rw [hb.range_eq hi, (sizeT_int32_eq_iff (by omega)).mpr hsmall]
  · zify
    omega

theorem Batched.covered_of_exact (hb : Batched h b) (he : Exact h b) : Covered h := by
  have hbatched := hb.batched
  have hpos := hb.positive
  obtain ⟨t, ht⟩ : ∃ t : Nat, h.totalNumBatches - 1 = t := ⟨(h.totalNumBatches - 1).toNat, by omega⟩
  refine ⟨by omega, ?_, ?_, ?_, ?_⟩
  · have hrange := (hb.exact_range he (i := 0) (by omega)).1
    rw [Nat.cast_zero] at hrange
    rw [hrange, Nat.zero_mul]
  · intro i hi
    obtain ⟨hrange, hlt⟩ := hb.exact_range he hi
    rw [hrange]
    refine lt_min hlt ?_
    rw [Nat.add_one_mul]
    omega
  · intro i hi
    obtain ⟨hrange, _⟩ := hb.exact_range he (i := i) (by omega)
    obtain ⟨hrange', hlt⟩ := hb.exact_range he hi
    rw [hrange, hrange']
    exact min_eq_right hlt.le
  · have hrange := (hb.exact_range he (i := t) (by omega)).1
    have hreaches := he.reaches
    rw [ht, hrange]
    rw [show h.totalNumBatches = (t + 1 : Nat) by push_cast; omega] at hreaches
    refine min_eq_left ?_
    exact_mod_cast hreaches

theorem Batched.offset_exact (hb : Batched h b) (hc : Covered h) {i : Nat} (hi : (i : Int) < h.totalNumBatches) :
    i * b < 2 ^ 31 ∧ i * b < h.data.length := by
  have htotal := hb.total
  have hbound := hb.bound
  have hprod : i * b < 2 ^ 31 * 2 ^ 31 := Nat.mul_lt_mul_of_le_of_lt (by omega) hbound (by norm_num)
  have hnonempty := hc.nonempty i hi
  rw [hb.range_eq hi] at hnonempty
  have hmin := min_le_left h.data.length ((i + 1) * b)
  have heq : sizeT (int32 (i * b : Nat)) = i * b := by
    cases i with
    | zero =>
        rw [Nat.zero_mul]
        exact (sizeT_int32_eq_iff (by norm_num)).mpr (by norm_num)
    | succ i =>
        have hcons := hc.consecutive i hi
        rw [hb.range_eq (i := i) (by omega), hb.range_eq hi] at hcons
        simp only at hcons hnonempty
        rw [← hcons]
        exact min_eq_right (by omega)
  rw [heq] at hnonempty
  exact ⟨(sizeT_int32_eq_iff (by omega)).mp heq, hnonempty.trans_le hmin⟩

theorem Batched.exact_of_covered (hb : Batched h b) (hc : Covered h) : Exact h b := by
  have hbatched := hb.batched
  obtain ⟨t, ht⟩ : ∃ t : Nat, h.totalNumBatches - 1 = t := ⟨(h.totalNumBatches - 1).toNat, by omega⟩
  obtain ⟨hoffset, hbelow⟩ := hb.offset_exact hc (i := t) (by omega)
  have hlast := hc.last
  rw [ht, hb.range_eq (i := t) (by omega)] at hlast
  refine ⟨?_, ?_, ?_⟩
  · rw [ht]
    exact_mod_cast hoffset
  · rw [ht]
    exact_mod_cast hbelow
  · rw [show h.totalNumBatches = (t + 1 : Nat) by push_cast; omega]
    exact_mod_cast min_eq_left_iff.mp hlast

end Handle

theorem ReceiveFragment.receiveNext_next {f : ReceiveFragment} {data : List UInt8} {j : Nat} {totalNumBatches : Int}
    {front back : List (Option (List UInt8))} (hdata : data ≠ []) (hj : (j : Int) < totalNumBatches)
    (hcount : 0 ≤ f.receivedFragments) (hlength : front.length = j)
    (hfragments : f.dataFragments ++ List.replicate (totalNumBatches.toNat - f.dataFragments.length) none =
      front ++ none :: back) :
    f.receiveNext data f.id j totalNumBatches = some { f with
      dataFragments := front ++ some data :: back
      receivedFragments := if f.receivedFragments + 1 = totalNumBatches then -1 else f.receivedFragments + 1 } := by
  have hat : (front ++ none :: back)[j]? = some none := by simp [← hlength]
  rw [ReceiveFragment.receiveNext, if_neg (by simp [hdata]), if_pos ⟨rfl, hj, hcount⟩]
  simp only [hfragments, Int.toNat_natCast]
  rw [if_pos hat, List.set_append_right _ _ hlength.le, hlength, Nat.sub_self, List.set_cons_zero]

theorem mapM_some {α β : Type} (g : α → β) (l : List α) : (l.map fun x => some (g x)).mapM id = some (l.map g) := by
  induction l with
  | nil => rfl
  | cons x l ih => simp [ih]

section Receiving

variable {b : Nat} {h : SendHandle} (hb : Batched h b) (he : Exact h b)

def chunk (h : SendHandle) (b i : Nat) : List UInt8 :=
  (h.data.drop (i * b)).take (min h.data.length ((i + 1) * b) - i * b)

theorem length_chunk_le (h : SendHandle) (b i : Nat) : (chunk h b i).length ≤ b := by
  rw [chunk, List.length_take, Nat.add_one_mul]
  omega

theorem flatten_chunks {i : Nat} (hi : ∀ j < i, j * b < h.data.length) :
    ((List.range i).map (chunk h b)).flatten = h.data.take (i * b) := by
  induction i with
  | zero => simp
  | succ i ih =>
      have hlt := hi i (Nat.lt_succ_self i)
      rw [List.range_succ, List.map_append, List.flatten_append, ih (fun j hj => hi j (by omega)), List.map_singleton,
        List.flatten_singleton, chunk, ← List.take_add, List.take_eq_take_iff]
      have hnext : i * b ≤ (i + 1) * b := Nat.mul_le_mul_right b (Nat.le_succ i)
      omega

structure Collected (h : SendHandle) (b i : Nat) (f : ReceiveFragment) : Prop where
  id : f.id = h.id
  count : f.receivedFragments = i
  cancelled : f.cancelled = false
  fragments : f.dataFragments ++ List.replicate (h.totalNumBatches.toNat - f.dataFragments.length) none =
    (List.range i).map (fun j => some (chunk h b j)) ++ List.replicate (h.totalNumBatches.toNat - i) none

theorem collected_start (h : SendHandle) (b : Nat) : Collected h b 0 { id := h.id } := ⟨rfl, rfl, rfl, by simp⟩

include hb he

theorem length_chunk_pos {i : Nat} (hi : (i : Int) < h.totalNumBatches) : 0 < (chunk h b i).length := by
  obtain ⟨_, hlt⟩ := hb.exact_range he hi
  have hpos := hb.positive
  rw [chunk, List.length_take, List.length_drop, Nat.add_one_mul]
  omega

theorem sendNext_batch {i : Nat} (hi : (i : Int) < h.totalNumBatches) :
    { h with sentBatches := i }.sendNext =
      some (.fragment (chunk h b i) h.id i h.totalNumBatches, { h with sentBatches := (i + 1 : Nat) }) := by
  have hbatched := hb.batched
  have htotal := hb.total
  obtain ⟨hrange, hlt⟩ := hb.exact_range he hi
  have hpos := hb.positive
  have hnext : i * b < (i + 1) * b := by rw [Nat.add_one_mul]; omega
  have hcancelled : h.sizePerBatch ≠ -1 := by rw [hb.size]; omega
  rw [SendHandle.sendNext, hrange]
  simp only [SendHandle.isFinished, SendHandle.isBatched, SendHandle.isCancelled, hi.ne, hbatched, hcancelled]
  rw [int32_eq (by omega) (by omega)]
  simp [hlt, hnext, chunk]

theorem receiveNext_batch {i : Nat} (hi : (i : Int) < h.totalNumBatches) {f : ReceiveFragment}
    (hf : Collected h b i f) : ∃ f', f.receiveNext (chunk h b i) h.id i h.totalNumBatches = some f' ∧
      f'.id = h.id ∧ f'.cancelled = false ∧
      f'.receivedFragments = (if (i + 1 : Int) = h.totalNumBatches then -1 else (i + 1 : Int)) ∧
      f'.dataFragments = (List.range (i + 1)).map (fun j => some (chunk h b j)) ++
        List.replicate (h.totalNumBatches.toNat - (i + 1)) none := by
  have hlen := length_chunk_pos hb he hi
  obtain ⟨rest, hrest⟩ : ∃ rest, h.totalNumBatches.toNat - i = rest + 1 := ⟨h.totalNumBatches.toNat - i - 1, by omega⟩
  have hfragments := hf.fragments
  rw [hrest, List.replicate_succ] at hfragments
  have hnext := ReceiveFragment.receiveNext_next (List.ne_nil_of_length_pos hlen) hi (by rw [hf.count]; omega)
    (by simp) hfragments
  rw [hf.id] at hnext
  refine ⟨_, hnext, rfl, hf.cancelled, ?_, ?_⟩
  · rw [hf.count]
  · rw [List.range_succ, show h.totalNumBatches.toNat - (i + 1) = rest by omega]
    simp

theorem assemble_all {f : ReceiveFragment} (hcancelled : f.cancelled = false) {t : Nat}
    (ht : h.totalNumBatches = (t + 1 : Nat))
    (hfragments : f.dataFragments = (List.range (t + 1)).map (fun j => some (chunk h b j))) :
    assemble f = some [h.data] := by
  have hflat := flatten_chunks (h := h) (b := b) (i := t + 1) fun j hj => (hb.exact_range he (by omega)).2
  have hreaches := he.reaches
  rw [ht] at hreaches
  rw [List.take_of_length_le (by exact_mod_cast hreaches)] at hflat
  rw [assemble, hfragments, if_neg (by simp), hcancelled, if_neg (by simp), mapM_some, Option.map_some, hflat]

theorem transmit_batches {fuel i : Nat} (hi : i + fuel = h.totalNumBatches.toNat) (hfuel : 0 < fuel) {r : Receiver}
    (hr : Collected h b i (r.fragment.getD { id := h.id })) (hsize : r.maxMsgSize = b) (hempty : r.received = []) :
    (transmit fuel { h with sentBatches := i } r).map Receiver.received = some [h.data] := by
  induction fuel generalizing i r with
  | zero => omega
  | succ fuel ih =>
      have hlt : (i : Int) < h.totalNumBatches := by omega
      obtain ⟨f, hnext, hid, hcancelled, hcount, hfragments⟩ := receiveNext_batch hb he hlt hr
      rw [transmit, if_neg (by simp [SendHandle.isFinished, hlt.ne]), sendNext_batch hb he hlt]
      have hfits : ¬(Message.fragment (chunk h b i) h.id i h.totalNumBatches).length > sizeT r.maxMsgSize + 20 := by
        have hlength := length_chunk_le h b i
        have hbound := hb.bound
        rw [Message.length, hsize, sizeT_natCast (by omega), sizeofInt]
        omega
      simp only [Option.bind_some, processReceived, hfits, hnext, hcancelled]
      by_cases hlast : (i + 1 : Int) = h.totalNumBatches
      · rw [if_pos hlast] at hcount
        rw [show h.totalNumBatches.toNat - (i + 1) = 0 by omega, List.replicate_zero, List.append_nil] at hfragments
        rw [assemble_all hb he hcancelled (by omega) hfragments, hempty]
        obtain rfl : fuel = 0 := by omega
        simp [ReceiveFragment.isFinished, hcount, transmit, SendHandle.isFinished, hlast]
      · rw [if_neg hlast] at hcount
        have hopen : ¬(false = true ∨ f.isFinished = true) := by
          simp only [ReceiveFragment.isFinished, hcount]
          simp
          omega
        rw [if_neg hopen]
        refine ih (by omega) (by omega) ⟨hid, ?_, hcancelled, ?_⟩ hsize hempty
        · rw [Option.getD_some, hcount]
          push_cast
          rfl
        · rw [Option.getD_some, hfragments, List.length_append, List.length_map, List.length_range,
            List.length_replicate, show h.totalNumBatches.toNat - (i + 1 + (h.totalNumBatches.toNat - (i + 1))) = 0 by
              omega, List.replicate_zero, List.append_nil]

end Receiving

section Options

variable {id : Int} {data : List UInt8} {b : Nat}

def halfUlp (k : Nat) : ℚ := 2 ^ Nat.log 2 k / 2 ^ 24

/-- The payload is not empty. It fits into one message, or its exact number of
batches is what the rounded division gives and all of their offsets are ints. -/
def Sendable (n b : Nat) : Prop :=
  0 < n ∧ (n ≤ b + 12 ∨ (n ≤ b + 20 ∧ binary32 n / binary32 b ≤ 1 + halfUlp 1) ∨
    ∃ k : Nat, k * b < n ∧ n ≤ (k + 1) * b ∧ k * b < 2 ^ 31 ∧ k + halfUlp k < binary32 n / binary32 b ∧
      binary32 n / binary32 b ≤ (k + 1 : Nat) + halfUlp (k + 1))

theorem quotient_pos {n : Nat} (hn : 0 < n) (hb : 0 < b) : 0 < binary32 n / binary32 b :=
  div_pos (roundBits_pos (by norm_num) (by exact_mod_cast hn)) (roundBits_pos (by norm_num) (by exact_mod_cast hb))

theorem ceil_quotient_le_iff {n k : Nat} (hn : 0 < n) (hb : 0 < b) (hk : 0 < k) (hk' : k < 2 ^ 22) :
    ⌈binary32 (binary32 n / binary32 b)⌉ ≤ k ↔ binary32 n / binary32 b ≤ k + halfUlp k := by
  have hlog : Nat.log 2 k < 22 := Nat.log_lt_of_lt_pow hk.ne' hk'
  rw [Int.ceil_le, Int.cast_natCast, halfUlp]
  exact roundBits_le_iff hk (by omega) (quotient_pos hn hb)

theorem totalNumBatches_create (hn : b + 12 < data.length) (hb : b < 2 ^ 31) :
    (SendHandle.create id data b).totalNumBatches =
      intOfFloat ⌈binary32 (binary32 data.length / binary32 b)⌉ := by
  rw [SendHandle.create]
  simp only [sizeT_natCast (show b < 2 ^ 64 by omega), sizeofInt, Int.cast_natCast]
  rw [if_neg (by omega)]

theorem intOfFloat_eq {x : ℤ} {t : Nat} (ht : t < 2 ^ 31) : intOfFloat x = t ↔ x = t := by
  rw [intOfFloat]
  split_ifs <;> omega

theorem totalNumBatches_eq_one_iff (hn : b + 12 < data.length) (hlow : 0 < b) (hhigh : b < 2 ^ 31) :
    (SendHandle.create id data b).totalNumBatches = 1 ↔ binary32 data.length / binary32 b ≤ 1 + halfUlp 1 := by
  have hone := ceil_quotient_le_iff (n := data.length) (by omega) hlow one_pos (by norm_num)
  have hceil : 0 < ⌈binary32 (binary32 data.length / binary32 b)⌉ :=
    Int.ceil_pos.mpr (roundBits_pos (by norm_num) (quotient_pos (by omega) hlow))
  have htotal := intOfFloat_eq (x := ⌈binary32 (binary32 data.length / binary32 b)⌉) (t := 1) (by norm_num)
  rw [Nat.cast_one] at hone htotal
  rw [totalNumBatches_create hn hhigh, htotal, ← Nat.cast_one (R := ℚ), ← hone]
  omega

theorem totalNumBatches_eq_iff (hn : b + 12 < data.length) (hlow : 0 < b) (hhigh : b < 2 ^ 31) {k : Nat} (hk : 0 < k)
    (hk' : k + 1 < 2 ^ 22) : (SendHandle.create id data b).totalNumBatches = (k + 1 : Nat) ↔
      k + halfUlp k < binary32 data.length / binary32 b ∧
        binary32 data.length / binary32 b ≤ (k + 1 : Nat) + halfUlp (k + 1) := by
  have hless := ceil_quotient_le_iff (n := data.length) (by omega) hlow hk (by omega)
  have hnext := ceil_quotient_le_iff (n := data.length) (by omega) hlow (Nat.succ_pos k) hk'
  rw [totalNumBatches_create hn hhigh, intOfFloat_eq (by omega), ← hnext, ← not_le, ← hless]
  omega

theorem transmit_one {h : SendHandle} (ht : h.totalNumBatches = 1) (hs : h.sentBatches = 0) (hb : b < 2 ^ 31) :
    (transmit 1 h { maxMsgSize := b }).map Receiver.received = some [h.data] ↔ h.data.length ≤ b + 20 := by
  have hopen : h.isFinished = false := by simp [SendHandle.isFinished, ht, hs]
  have hsingle : h.isBatched = false := by simp [SendHandle.isBatched, ht]
  have hdone : { h with sentBatches := 1 }.isFinished = true := by simp [SendHandle.isFinished, ht]
  simp only [transmit, SendHandle.sendNext, hopen, hsingle, hdone, processReceived, Message.length,
    sizeT_natCast (show b < 2 ^ 64 by omega), Bool.not_false, if_true, Option.bind_some, Bool.false_eq_true, if_false]
  split_ifs with hlength
  · simp
    omega
  · simp
    omega

theorem transmit_single (h : (SendHandle.create id data b).totalNumBatches = 1) (hb : b < 2 ^ 31) :
    Transmitted id data b ↔ 0 < data.length ∧ data.length ≤ b + 20 := by
  have hrange : ∀ i : Int, { SendHandle.create id data b with sentBatches := i }.range = (0, data.length) := by
    intro i
    rw [SendHandle.range, if_neg (by simp [SendHandle.isBatched, h])]
    rfl
  have htransmit := transmit_one (h := SendHandle.create id data b) h rfl hb
  rw [Transmitted, h]
  refine and_congr ⟨?_, ?_⟩ htransmit
  · intro hc
    have hnonempty := hc.nonempty 0 (by rw [h]; exact Int.one_pos)
    rwa [hrange] at hnonempty
  · intro hpos
    refine ⟨by omega, ?_, ?_, ?_, ?_⟩
    · rw [hrange]
    · intro i hi
      rw [hrange]
      exact hpos
    · intro i hi
      omega
    · rw [hrange]
      rfl

theorem transmit_batched (hb : Batched (SendHandle.create id data b) b) :
    Transmitted id data b ↔ Exact (SendHandle.create id data b) b := by
  have hbatched := hb.batched
  constructor
  · rintro ⟨hc, -⟩
    exact hb.exact_of_covered hc
  · intro he
    refine ⟨hb.covered_of_exact he, ?_⟩
    exact transmit_batches hb he (i := 0) (Nat.zero_add _) (by omega) (collected_start _ b) rfl rfl

/-- A payload arrives as a whole exactly if the float division gives its number
of batches and the offsets of the batches fit an int. -/
theorem transmitted_iff (id : Int) (data : List UInt8) (b : Nat) (hlow : 1000 ≤ b) (hhigh : b < 2 ^ 31) :
    Transmitted id data b ↔ Sendable data.length b := by
  by_cases hfits : data.length ≤ b + 12
  · have hone : (SendHandle.create id data b).totalNumBatches = 1 := by
      rw [SendHandle.create, sizeT_natCast (by omega)]
      exact if_pos hfits
    rw [transmit_single hone hhigh]
    constructor
    · rintro ⟨hpos, -⟩
      exact ⟨hpos, Or.inl hfits⟩
    · rintro ⟨hpos, -⟩
      exact ⟨hpos, by omega⟩
  have hn : b + 12 < data.length := by omega
  have hb : 0 < b := by omega
  have hone := @totalNumBatches_eq_one_iff id data b hn hb hhigh
  constructor
  · intro ht
    refine ⟨by omega, Or.inr ?_⟩
    have hsome := ht.1.some
    have hless := totalNumBatches_lt id data b
    obtain ⟨k, htotal⟩ : ∃ k : Nat, (SendHandle.create id data b).totalNumBatches = (k + 1 : Nat) :=
      ⟨((SendHandle.create id data b).totalNumBatches - 1).toNat, by omega⟩
    cases Nat.eq_zero_or_pos k with
    | inl hzero =>
        rw [hzero] at htotal
        exact Or.inl ⟨((transmit_single htotal hhigh).mp ht).2, hone.mp htotal⟩
    | inr hk =>
        obtain ⟨hoffsets, hbelow, hreaches⟩ := (transmit_batched ⟨by omega, hless, rfl, hb, hhigh⟩).mp ht
        rw [htotal, Nat.cast_add, Nat.cast_one, add_sub_cancel_right] at hoffsets hbelow
        rw [htotal] at hreaches
        have hprod : k * b < 2 ^ 31 := by exact_mod_cast hoffsets
        have hfew : k * 1000 ≤ k * b := Nat.mul_le_mul_left k hlow
        obtain ⟨habove, hupto⟩ := (totalNumBatches_eq_iff hn hb hhigh hk (by omega)).mp htotal
        exact Or.inr ⟨k, by exact_mod_cast hbelow, by exact_mod_cast hreaches, hprod, habove, hupto⟩
  · rintro ⟨hpos, hfit | ⟨hfit, hquot⟩ | ⟨k, hbelow, hreaches, hprod, habove, hupto⟩⟩
    · exact absurd hfit hfits
    · exact (transmit_single (hone.mpr hquot) hhigh).mpr ⟨hpos, hfit⟩
    · have hk : 0 < k := by
        by_contra hzero
        rw [Nat.eq_zero_of_not_pos hzero, Nat.zero_add, Nat.one_mul] at hreaches
        omega
      have hfew : k * 1000 ≤ k * b := Nat.mul_le_mul_left k hlow
      have htotal := (@totalNumBatches_eq_iff id data b hn hb hhigh k hk (by omega)).mpr ⟨habove, hupto⟩
      have hbatched : Batched (SendHandle.create id data b) b := ⟨by omega, by omega, rfl, hb, hhigh⟩
      refine (transmit_batched hbatched).mpr ⟨?_, ?_, ?_⟩
      · rw [htotal, Nat.cast_add, Nat.cast_one, add_sub_cancel_right]
        exact_mod_cast hprod
      · rw [htotal, Nat.cast_add, Nat.cast_one, add_sub_cancel_right]
        exact_mod_cast hbelow
      · rw [htotal]
        exact_mod_cast hreaches

theorem transmitted_iff_three_batches : Transmitted 1 (List.replicate 2500 7) 1000 := by
  refine (transmitted_iff 1 (List.replicate 2500 7) 1000 (by norm_num) (by norm_num)).mpr ?_
  rw [List.length_replicate]
  refine ⟨by norm_num, Or.inr (Or.inr ⟨2, by norm_num, by norm_num, by norm_num, ?_, ?_⟩)⟩
  · decide +kernel
  · decide +kernel

/-- With the default size of a batch, the last byte is not sent: 17000001 is
rounded to an even number. -/
theorem last_byte_lost : ¬Transmitted 1 (List.replicate 17000001 7) 1000000 := by
  rintro ⟨hc, -⟩
  have htotal : (SendHandle.create 1 (List.replicate 17000001 7) (1000000 : Nat)).totalNumBatches = 17 := by
    rw [totalNumBatches_create (by rw [List.length_replicate]; norm_num) (by norm_num), List.length_replicate]
    decide +kernel
  have hbatched : Batched (SendHandle.create 1 (List.replicate 17000001 7) (1000000 : Nat)) 1000000 :=
    ⟨by omega, by omega, rfl, by norm_num, by norm_num⟩
  have hreaches := (hbatched.exact_of_covered hc).reaches
  rw [htotal, SendHandle.create, List.length_replicate] at hreaches
  norm_num at hreaches

end Options

end Mallob.MessageQueue
