import Mallob.ClauseBuffer

namespace Mallob.Sharing

/-- The ring buffer of a single thread. The offsets are those of the library; the integers between
the written offset and the next one are kept in the order in which they were produced. -/
structure Ringbuf where
  space : Nat
  next : Nat := 0
  written : Nat := 0
  fin : Option Nat := none
  data : List Int := []
deriving DecidableEq

namespace Ringbuf

def produce (r : Ringbuf) (ints : List Int) : Option Ringbuf :=
  let target := r.next + ints.length
  if r.next < r.written ∧ r.written ≤ target then none
  else if r.space ≤ target then
    let wrapped := if r.space < target then ints.length else 0
    if r.written ≤ wrapped then none
    else some { r with
      next := wrapped
      fin := if r.space < target then some r.next else r.fin
      data := r.data ++ ints }
  else some { r with next := target, data := r.data ++ ints }

def release (r : Ringbuf) (nbytes : Nat) : List Int × Ringbuf :=
  (r.data.take nbytes, { r with
    written := if r.written + nbytes = r.space then 0 else r.written + nbytes
    data := r.data.drop nbytes })

/-- The contiguous range that is ready to be consumed. At the end of the buffer the consumer starts
from zero again. -/
def consume (r : Ringbuf) : List Int × Ringbuf :=
  if r.written = r.next then ([], r)
  else if r.next < r.written then
    let fin := min r.space (r.fin.getD r.space)
    if r.written = fin then
      let r := { r with written := 0, fin := none }
      if 0 = r.next then ([], r) else r.release r.next
    else r.release (fin - r.written)
  else r.release (r.next - r.written)

end Ringbuf

structure RingBuffer where
  ringbuf : Ringbuf
  memory : Nat
  consumed : List Int := []
deriving DecidableEq

namespace RingBuffer

def new (size memory : Nat) : RingBuffer where
  ringbuf := { space := size }
  memory := memory

def produce (b : RingBuffer) (data : List Int) (prefixOrZero : Int) : Option RingBuffer :=
  (b.ringbuf.produce (if prefixOrZero ≠ 0 then prefixOrZero :: data else data)).map
    fun r => { b with ringbuf := r }

/-- A batch is fetched once the last one is used up; its elements are taken from the back. -/
def fetch (b : RingBuffer) : RingBuffer :=
  if b.consumed.isEmpty then
    { b with ringbuf := b.ringbuf.consume.2, consumed := b.ringbuf.consume.1 }
  else b

def consume (size : Nat) (b : RingBuffer) : Option (List Int) × RingBuffer :=
  if b.fetch.consumed.isEmpty then (none, b.fetch)
  else
    let start := b.fetch.consumed.length - size
    (some (b.fetch.consumed.drop start), { b.fetch with consumed := b.fetch.consumed.take start })

end RingBuffer

def chunksOf (n : Nat) (xs : List Int) : List (List Int) :=
  (List.range (xs.length / n)).map fun i => (xs.drop (i * n)).take n

variable {n : Nat} {r r' : Ringbuf} {b b' : RingBuffer} {ints batch e : List Int} {es : List (List Int)}

theorem chunksOf_cons (hn : 0 < n) (he : e.length = n) (xs : List Int) :
    chunksOf n (e ++ xs) = e :: chunksOf n xs := by
  have hcount : (e ++ xs).length / n = xs.length / n + 1 := by
    rw [List.length_append, he, Nat.add_div_left _ hn]
  rw [chunksOf, hcount, List.range_succ_eq_map, List.map_cons, List.map_map]
  congr 1
  · simp [← he]
  · refine List.map_congr_left fun i _ => ?_
    have hskip : (e ++ xs).drop ((i + 1) * n) = xs.drop (i * n) := by
      rw [Nat.succ_mul, Nat.add_comm, ← List.drop_drop, ← he, List.drop_left]
    simp only [Function.comp_apply, Nat.succ_eq_add_one, hskip]

theorem chunksOf_flatten (hn : 0 < n) (hes : ∀ e ∈ es, e.length = n) : chunksOf n es.flatten = es := by
  induction es with
  | nil => simp [chunksOf]
  | cons e es ih =>
      rw [List.flatten_cons, chunksOf_cons hn (hes e (List.mem_cons_self ..)),
        ih (fun e' he' => hes e' (List.mem_cons_of_mem _ he'))]

theorem exists_flatten_of_dvd {xs : List Int} (h : n ∣ xs.length) :
    ∃ es : List (List Int), xs = es.flatten ∧ ∀ e ∈ es, e.length = n := by
  obtain ⟨k, hk⟩ := h
  induction k generalizing xs with
  | zero => exact ⟨[], by simpa using hk, by simp⟩
  | succ k ih =>
      have htake : (xs.take n).length = n := by
        rw [List.length_take, hk]
        exact Nat.min_eq_left (Nat.le_mul_of_pos_right n (Nat.succ_pos k))
      obtain ⟨es, hes, hall⟩ := @ih (xs.drop n) (by rw [List.length_drop, hk, Nat.mul_succ, Nat.add_sub_cancel])
      refine ⟨xs.take n :: es, by rw [List.flatten_cons, ← hes, List.take_append_drop], fun e he => ?_⟩
      rcases List.mem_cons.mp he with rfl | he
      · exact htake
      · exact hall e he

def Ringbuf.Aligned (n : Nat) (r : Ringbuf) : Prop :=
  (r.written ≤ r.next ∧ r.next ≤ r.space - 1 ∧ r.fin = none ∧ r.data.length = r.next - r.written ∧
    n ∣ r.next - r.written) ∨
  (r.next < r.written ∧ r.written < r.space ∧ (∀ e ∈ r.fin, 0 < r.next ∧ e < r.space) ∧
    r.written ≤ r.fin.getD r.space ∧ r.data.length = r.fin.getD r.space - r.written + r.next ∧
    n ∣ r.fin.getD r.space - r.written ∧ n ∣ r.next)

theorem Ringbuf.Aligned.dvd (h : r.Aligned n) : n ∣ r.data.length := by
  rcases h with ⟨-, -, -, hlen, hdvd⟩ | ⟨-, -, -, -, hlen, hfin, hnext⟩
  · rw [hlen]
    exact hdvd
  · rw [hlen]
    exact Nat.dvd_add hfin hnext

theorem Ringbuf.aligned_new (n size : Nat) : ({ space := size } : Ringbuf).Aligned n :=
  Or.inl ⟨le_rfl, Nat.zero_le _, rfl, rfl, Nat.dvd_zero n⟩

theorem Ringbuf.Aligned.produce (h : r.Aligned n) (hn : 0 < n) (hlen : ints.length = n)
    (hr : r.produce ints = some r') : r'.Aligned n ∧ r'.data = r.data ++ ints ∧ r'.space = r.space := by
  simp only [Ringbuf.produce] at hr
  split at hr
  · cases hr
  · next hfree =>
      split at hr
      · next hwrap =>
          rcases h with ⟨hle, hlt, hfin, hdata, hdvd⟩ | ⟨hlt, hspace, -⟩
          · by_cases hexceed : r.space < r.next + ints.length
            · simp only [hexceed, if_true] at hr
              split at hr
              · cases hr
              · obtain rfl := Option.some.inj hr
                refine ⟨Or.inr ?_, rfl, rfl⟩
                simp only [Option.getD_some, List.length_append, hdata, hlen] at *
                refine ⟨by omega, by omega, ?_, hle, trivial, hdvd, dvd_rfl⟩
                rintro e ⟨⟩
                exact ⟨hn, by omega⟩
            · simp only [hexceed, if_false] at hr
              split at hr
              · cases hr
              · obtain rfl := Option.some.inj hr
                refine ⟨Or.inr ?_, rfl, rfl⟩
                simp only [hfin, Option.getD_none, List.length_append, hdata, hlen] at *
                have hend : r.space - r.written = r.next - r.written + n := by omega
                refine ⟨by omega, by omega, by simp, by omega, by omega, ?_, Nat.dvd_zero n⟩
                rw [hend]
                exact Nat.dvd_add hdvd dvd_rfl
          · omega
      · next hroom =>
          obtain rfl := Option.some.inj hr
          refine ⟨?_, rfl, rfl⟩
          rcases h with ⟨hle, hlt, hfin, hdata, hdvd⟩ | ⟨hlt, hspace, hpos, hw, hdata, hd, hnext⟩
          · left
            have hdiff : r.next + n - r.written = r.next - r.written + n := by omega
            simp only [List.length_append, hdata, hlen, hdiff]
            exact ⟨by omega, by omega, hfin, trivial, Nat.dvd_add hdvd dvd_rfl⟩
          · right
            simp only [List.length_append, hdata, hlen] at *
            exact ⟨by omega, hspace, fun e he => ⟨by omega, (hpos e he).2⟩, hw, by omega, hd, Nat.dvd_add hnext dvd_rfl⟩

/-- Consuming yields a sequence of full ranges from the front, and something as long as there is any. -/
theorem Ringbuf.Aligned.consume (h : r.Aligned n) :
    r.consume.2.Aligned n ∧ r.data = r.consume.1 ++ r.consume.2.data ∧ n ∣ r.consume.1.length ∧
      (r.consume.1 = [] → r.data = []) := by
  rcases h with ⟨hle, hlt, hfin, hdata, hdvd⟩ | ⟨hlt, hspace, hpos, hw, hdata, hd, hnext⟩
  · by_cases heq : r.written = r.next
    · have hnone : r.data = [] := List.length_eq_zero_iff.mp (by omega)
      rw [Ringbuf.consume, if_pos heq]
      exact ⟨Or.inl ⟨hle, hlt, hfin, hdata, hdvd⟩, rfl, Nat.dvd_zero n, fun _ => hnone⟩
    · rw [Ringbuf.consume, if_neg heq, if_neg (by omega), Ringbuf.release, ← hdata]
      simp only [List.take_length, List.drop_length, List.append_nil]
      refine ⟨Or.inl ?_, trivial, by rw [hdata]; exact hdvd, fun h => h⟩
      have hend : r.written + r.data.length = r.next := by omega
      simp only [hend, List.length_nil]
      rw [if_neg (by omega)]
      exact ⟨le_rfl, hlt, hfin, by omega, by simp⟩
  · have hend : r.fin.getD r.space ≤ r.space ∧ (r.fin.getD r.space = r.space → r.fin = none) ∧
        (r.written = r.fin.getD r.space → 0 < r.next) := by
      cases hf : r.fin with
      | none => exact ⟨le_rfl, fun _ => rfl, by rw [Option.getD_none]; omega⟩
      | some e =>
          obtain ⟨hnext, he⟩ := hpos e hf
          exact ⟨he.le, fun h => absurd h he.ne, fun _ => hnext⟩
    obtain ⟨hs, hnone, hwrapped⟩ := hend
    rw [Ringbuf.consume, if_neg (by omega), if_pos hlt]
    simp only [Nat.min_eq_right hs]
    by_cases hend : r.written = r.fin.getD r.space
    · have hnext' := hwrapped hend
      have hlen : r.data.length = r.next := by omega
      rw [if_pos hend, if_neg (by omega), Ringbuf.release, ← hlen]
      simp only [List.take_length, List.drop_length, List.append_nil, Nat.zero_add]
      refine ⟨Or.inl ?_, trivial, by rw [hlen]; exact hnext, fun h => h⟩
      rw [if_neg (by omega)]
      exact ⟨by simp only; omega, by simp only; omega, rfl, by simp only [List.length_nil]; omega, by simp [hlen]⟩
    · have htake : min (r.fin.getD r.space - r.written) r.data.length = r.fin.getD r.space - r.written := by omega
      have hrest : r.data.length - (r.fin.getD r.space - r.written) = r.next := by omega
      have hto : r.written + (r.fin.getD r.space - r.written) = r.fin.getD r.space := by omega
      rw [if_neg hend, Ringbuf.release]
      simp only [List.take_append_drop, List.length_take, htake, hto]
      refine ⟨?_, trivial, hd, ?_⟩
      · by_cases hfull : r.fin.getD r.space = r.space
        · left
          simp only [hfull, if_true, List.length_drop, Nat.sub_zero]
          exact ⟨Nat.zero_le _, by omega, hnone hfull, by rw [← hfull]; exact hrest, hnext⟩
        · right
          simp only [hfull, if_false, List.length_drop, hrest, Nat.sub_self, Nat.zero_add]
          exact ⟨by omega, by omega, hpos, le_rfl, trivial, Nat.dvd_zero n, hnext⟩
      · intro h
        have hzero := congrArg List.length h
        rw [List.length_take, htake, List.length_nil] at hzero
        omega

structure RingBuffer.Sound (n : Nat) (b : RingBuffer) : Prop where
  aligned : b.ringbuf.Aligned n
  dvd : n ∣ b.consumed.length

def RingBuffer.elements (n : Nat) (b : RingBuffer) : List (List Int) := chunksOf n (b.consumed ++ b.ringbuf.data)

theorem RingBuffer.sound_new (n size memory : Nat) : (RingBuffer.new size memory).Sound n :=
  ⟨Ringbuf.aligned_new n size, Nat.dvd_zero n⟩

theorem RingBuffer.elements_new (n size memory : Nat) : (RingBuffer.new size memory).elements n = [] := by
  simp [RingBuffer.elements, RingBuffer.new, chunksOf]

theorem RingBuffer.Sound.elements_eq (h : b.Sound n) (hn : 0 < n) :
    ∃ cs ds : List (List Int), b.consumed = cs.flatten ∧ b.ringbuf.data = ds.flatten ∧ b.elements n = cs ++ ds ∧
      (∀ e ∈ cs, e.length = n) ∧ ∀ e ∈ ds, e.length = n := by
  obtain ⟨cs, hcs, hcs'⟩ := exists_flatten_of_dvd h.dvd
  obtain ⟨ds, hds, hds'⟩ := exists_flatten_of_dvd h.aligned.dvd
  refine ⟨cs, ds, hcs, hds, ?_, hcs', hds'⟩
  rw [RingBuffer.elements, hcs, hds, ← List.flatten_append]
  refine chunksOf_flatten hn fun e he => ?_
  rcases List.mem_append.mp he with he | he
  · exact hcs' e he
  · exact hds' e he

theorem RingBuffer.Sound.length_eq (h : b.Sound n) (hn : 0 < n) : ∀ e ∈ b.elements n, e.length = n := by
  obtain ⟨cs, ds, -, -, helems, hcs, hds⟩ := h.elements_eq hn
  intro e he
  rw [helems] at he
  rcases List.mem_append.mp he with he | he
  · exact hcs e he
  · exact hds e he

theorem elements_of_flatten (hn : 0 < n) {cs ds : List (List Int)} (hcs : b.consumed = cs.flatten)
    (hds : b.ringbuf.data = ds.flatten) (hcs' : ∀ e ∈ cs, e.length = n) (hds' : ∀ e ∈ ds, e.length = n) :
    b.elements n = cs ++ ds := by
  rw [RingBuffer.elements, hcs, hds, ← List.flatten_append]
  refine chunksOf_flatten hn fun e he => ?_
  rcases List.mem_append.mp he with he | he
  · exact hcs' e he
  · exact hds' e he

theorem RingBuffer.Sound.produce (h : b.Sound n) (hn : 0 < n) {data : List Int} {prefixOrZero : Int}
    (hlen : (if prefixOrZero ≠ 0 then prefixOrZero :: data else data).length = n)
    (hb : b.produce data prefixOrZero = some b') :
    b'.Sound n ∧ b'.elements n = b.elements n ++ [if prefixOrZero ≠ 0 then prefixOrZero :: data else data] := by
  rw [RingBuffer.produce, Option.map_eq_some_iff] at hb
  obtain ⟨r, hr, rfl⟩ := hb
  obtain ⟨haligned, hdata, -⟩ := h.aligned.produce hn hlen hr
  refine ⟨⟨haligned, h.dvd⟩, ?_⟩
  obtain ⟨cs, ds, hcs, hds, helems, hcs', hds'⟩ := h.elements_eq hn
  rw [helems, List.append_assoc]
  refine elements_of_flatten hn hcs ?_ hcs' ?_
  · simp only [hdata, hds, List.flatten_append, List.flatten_singleton]
  · intro e he
    rcases List.mem_append.mp he with he | he
    · exact hds' e he
    · rw [List.mem_singleton.mp he]
      exact hlen

/-- An empty ring buffer takes an element that is shorter than its space. -/
theorem RingBuffer.produce_new {size memory : Nat} {data : List Int} {prefixOrZero : Int}
    (hlen : (if prefixOrZero ≠ 0 then prefixOrZero :: data else data).length < size) :
    ∃ b, (RingBuffer.new size memory).produce data prefixOrZero = some b := by
  simp only [RingBuffer.produce, RingBuffer.new, Ringbuf.produce, Nat.lt_irrefl, false_and, if_false, Nat.zero_add]
  rw [if_neg (by omega)]
  exact ⟨_, rfl⟩

theorem RingBuffer.Sound.fetch (h : b.Sound n) :
    b.fetch.Sound n ∧ b.fetch.elements n = b.elements n ∧ (b.fetch.consumed = [] → b.elements n = []) := by
  rw [RingBuffer.fetch]
  split
  · next hempty =>
      obtain ⟨haligned, hdata, hdvd, hnone⟩ := h.aligned.consume
      have hconsumed : b.consumed = [] := List.isEmpty_iff.mp hempty
      refine ⟨⟨haligned, hdvd⟩, ?_, fun hbatch => ?_⟩
      · simp only [RingBuffer.elements, hconsumed, List.nil_append]
        rw [hdata]
      · rw [RingBuffer.elements, hconsumed, hnone hbatch]
        simp [chunksOf]
  · next hsome => exact ⟨h, rfl, fun hbatch => absurd (List.isEmpty_iff.mpr hbatch) hsome⟩

theorem RingBuffer.Sound.consume (h : b.Sound n) (hn : 0 < n) :
    (b.consume n).2.Sound n ∧
      match (b.consume n).1 with
      | none => b.elements n = [] ∧ (b.consume n).2.elements n = []
      | some e => (b.elements n).Perm (e :: (b.consume n).2.elements n) := by
  obtain ⟨hsound, helems, hnone⟩ := h.fetch
  rw [RingBuffer.consume]
  split
  · next hempty =>
      have hzero := hnone (List.isEmpty_iff.mp hempty)
      exact ⟨hsound, hzero, helems.trans hzero⟩
  · next hsome =>
      obtain ⟨cs, ds, hcs, hds, heq, hcs', hds'⟩ := hsound.elements_eq hn
      obtain ⟨cs, e, rfl⟩ : ∃ cs₁ e, cs = cs₁ ++ [e] := by
        rcases List.eq_nil_or_concat cs with rfl | ⟨cs₁, e, rfl⟩
        · exact absurd (List.isEmpty_iff.mpr hcs) hsome
        · exact ⟨cs₁, e, by simp⟩
      have he : e.length = n := hcs' e (by simp)
      have hstart : b.fetch.consumed.length - n = cs.flatten.length := by
        rw [hcs, List.flatten_append, List.length_append]
        simp [he]
      have hcs₁ : ∀ e ∈ cs, e.length = n := fun e' he' => hcs' e' (by simp [he'])
      have hrest : b.fetch.consumed.take (b.fetch.consumed.length - n) = cs.flatten := by
        rw [hstart, hcs, List.flatten_append, List.take_left]
      have hlast : b.fetch.consumed.drop (b.fetch.consumed.length - n) = e := by
        rw [hstart, hcs, List.flatten_append, List.drop_left]
        simp
      refine ⟨⟨hsound.aligned, ?_⟩, ?_⟩
      · simp only [hrest, List.length_flatten]
        refine List.dvd_sum fun k hk => ?_
        obtain ⟨e', he', rfl⟩ := List.mem_map.mp hk
        rw [hcs₁ e' he']
      · have hremaining : ({ b.fetch with consumed := cs.flatten } : RingBuffer).elements n = cs ++ ds :=
          elements_of_flatten hn rfl hds hcs₁ hds'
        simp only [hlast, hrest]
        rw [hremaining, ← helems, heq, List.append_assoc]
        exact List.perm_middle

end Mallob.Sharing
