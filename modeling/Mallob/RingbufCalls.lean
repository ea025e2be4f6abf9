import Mallob.RingBuffer
import Mallob.RingbufRuns

namespace Mallob.RingbufThreads

open RangeChains Runs Sharing

variable {α : Type} {s s' : State α} {L : Layout α} {w : Nat} {x y : Worker α}

@[simp] theorem workers_setWorker_self (s : State α) (w : Nat) (x : Worker α) : (s.setWorker w x).workers w = x :=
  Function.update_self ..

@[simp] theorem setWorker_setWorker (s : State α) (w : Nat) (x y : Worker α) :
    (s.setWorker w x).setWorker w y = s.setWorker w y := by
  simp only [State.setWorker, Function.update_idem]

@[simp] theorem setCall_setWorker (s : State α) (w : Nat) (x : Worker α) (call : Producing α) :
    (s.setWorker w x).setCall w call = s.setWorker w ⟨x.seenOff, call⟩ := by
  rw [State.setCall, setWorker_setWorker, workers_setWorker_self]

theorem run_cons {a : Action α} {as : List (Action α)} {s₁ : State α} (h : step s a = .ok s₁) :
    run step s (a :: as) = run step s₁ as := by
  rw [run, List.foldlM_cons, h]
  rfl

structure Quiet (s : State α) : Prop where
  producers : ∀ w, s.workers w = ⟨.max, .idle⟩
  consumer : s.consumer = .idle
  unlocked : s.next.locked = false

section Produce

theorem produce_idle (hcall : (s.workers w).call = .idle) (k : Nat) :
    run step s (List.replicate k (.produce w false)) = .ok s := by
  induction k with
  | zero => rfl
  | succ k ih =>
      have hstep : step s (.produce w false) = .ok s := by rw [step, State.produce, hcall]
      rw [List.replicate_succ, run_cons hstep, ih]

/-- The data is copied, the range is produced, and the producer stays idle. -/
theorem produce_copies {data : List α} {offset copied : Nat} (hcall : (s.workers w).call = .copy data offset copied)
    (hseen : (s.workers w).seenOff ≠ .max) {n : Nat} (hn : copied + n = data.length) (k : Nat) :
    ∃ cells, run step s (List.replicate (n + 1 + k) (.produce w false)) =
      .ok { s.setWorker w ⟨.max, .idle⟩ with cells := cells } := by
  induction n generalizing s copied with
  | zero =>
      have hnone : data[copied]? = none := List.getElem?_eq_none_iff.mpr (by omega)
      have hstep : step s (.produce w false) = .ok (s.setWorker w ⟨.max, .idle⟩) := by
        simp only [step, State.produce, hcall, hnone, if_pos hseen]
      refine ⟨s.cells, ?_⟩
      rw [Nat.zero_add, Nat.add_comm, List.replicate_succ, run_cons hstep, produce_idle (by simp)]
      rfl
  | succ n ih =>
      have hget : data[copied]? = some data[copied] := List.getElem?_eq_getElem (by omega)
      have hstep : step s (.produce w false) = .ok { s.setCall w (.copy data offset (copied + 1)) with
          cells := Function.update s.cells (offset + copied) data[copied] } := by
        simp only [step, State.produce, hcall, hget]
      generalize hs₁ : ({ s.setCall w (.copy data offset (copied + 1)) with
        cells := Function.update s.cells (offset + copied) data[copied] } : State α) = s₁ at hstep
      have hworker : s₁.workers w = ⟨(s.workers w).seenOff, .copy data offset (copied + 1)⟩ := by
        rw [← hs₁]
        exact workers_setWorker_self ..
      obtain ⟨cells, hrun⟩ := ih (by rw [hworker]) (by rw [hworker]; exact hseen) (by omega)
      have hcount : n + 1 + 1 + k = n + 1 + k + 1 := by omega
      refine ⟨cells, ?_⟩
      rw [hcount, List.replicate_succ, run_cons hstep, hrun, ← hs₁]
      simp only [State.setCall, State.setWorker, Function.update_idem]

theorem Quiet.setWorker_eq (h : Quiet s) (w : Nat) : s.setWorker w ⟨.max, .idle⟩ = s := by
  rw [State.setWorker, ← h.producers w, Function.update_eq_self]

variable {data : List α}

theorem acquire_observes (h : Quiet s) (hnext : s.next.off < s.space) (hw : w < s.nworkers) (hpos : 0 < data.length)
    (hlen : data.length ≤ s.space) :
    run step s (.acquire w data :: List.replicate 3 (.produce w false)) =
      .ok (s.setWorker w ⟨.at s.next.off true, match target s.space s.next data.length s.written with
        | none => .giveUp
        | some t => .compareExchange data s.next t⟩) := by
  have hbegin : step s (.acquire w data) = .ok (s.setWorker w ⟨.max, .loadNext data⟩) := by
    simp only [step, State.acquire, if_neg (Nat.not_le_of_gt hw), State.setCall, h.producers w, hpos, hlen,
      and_self, if_true]
  have hload : step (s.setWorker w ⟨.max, .loadNext data⟩) (.produce w false) =
      .ok (s.setWorker w ⟨.max, .storeSeen data s.next⟩) := by
    rw [step, State.produce, workers_setWorker_self]
    simp only [State.setWorker, h.unlocked, hnext, if_true, Bool.false_eq_true, if_false, State.setCall,
      Function.update_idem, Function.update_self]
  have hstore : step (s.setWorker w ⟨.max, .storeSeen data s.next⟩) (.produce w false) =
      .ok (s.setWorker w ⟨.at s.next.off true, .loadWritten data s.next⟩) := by
    rw [step, State.produce, workers_setWorker_self]
    simp only [setWorker_setWorker]
  have hwritten : step (s.setWorker w ⟨.at s.next.off true, .loadWritten data s.next⟩) (.produce w false) =
      .ok (s.setWorker w ⟨.at s.next.off true, match target s.space s.next data.length s.written with
        | none => .giveUp
        | some t => .compareExchange data s.next t⟩) := by
    rw [step, State.produce, workers_setWorker_self]
    change (match target s.space s.next data.length s.written with | none => _ | some t => _) = _
    cases target s.space s.next data.length s.written with
    | none => simp only [setCall_setWorker]
    | some t => simp only [setCall_setWorker]
  rw [run_cons hbegin, List.replicate_succ, run_cons hload, List.replicate_succ, run_cons hstore, List.replicate_one,
    run_singleton, hwritten]

def State.exchanged (s : State α) (w : Nat) (data : List α) (t : Next) (x : Worker α) : State α :=
  { s.setWorker w x with
    next := t
    acquired := s.acquired ++ [data]
    wraps := if s.space ≤ s.next.off + data.length then s.wraps + 1 else s.wraps }

/-- With the range acquired nothing else than NEXT and the end offset has changed for the others. -/
theorem Quiet.after (h : Quiet s) {x : Worker α} {next t : Next} {fin : Option Nat} {cells : Nat → α}
    (hs' : s' = { s.exchanged w data t x with next := next, fin := fin }) :
    ({ s'.setWorker w ⟨.max, .idle⟩ with cells := cells } : State α) =
      { s with next := next, fin := fin, cells := cells, acquired := s.acquired ++ [data], wraps := s'.wraps } := by
  have hworkers := congrArg State.workers (h.setWorker_eq w)
  simp only [State.setWorker] at hworkers
  simp only [hs', State.exchanged, State.setWorker, Function.update_idem, hworkers]

/-- After the call the range is acquired and filled, and NEXT is not locked. -/
theorem produce_exchanges (h : Quiet s) {t : Next} (hle : t.off ≤ s.space)
    (hlock : t.locked = true → s.written ≤ s.next.off ∧ s.fin = none) {s₁ : State α}
    (hs₁ : s₁ = s.setWorker w ⟨.at s.next.off true, .compareExchange data s.next t⟩) :
    ∃ cells wraps, run step s₁ (List.replicate (5 + data.length) (.produce w false)) =
      .ok { s with
        next := { t with locked := false }
        fin := if t.locked then some s.next.off else s.fin
        cells := cells, acquired := s.acquired ++ [data], wraps := wraps } := by
  have hexchange : step s₁ (.produce w false) =
      .ok (s.exchanged w data t ⟨.at s.next.off true, .clearUnstable data s.next t⟩) := by
    rw [hs₁, step, State.produce, workers_setWorker_self]
    simp only [State.compareExchange, State.exchanged, State.setCall, State.setWorker, Function.update_idem,
      Function.update_self, Bool.not_false, and_self, if_true]
    rfl
  have hclear : step (s.exchanged w data t ⟨.at s.next.off true, .clearUnstable data s.next t⟩) (.produce w false) =
      .ok (s.exchanged w data t ⟨.at s.next.off false,
        if t.locked then .storeEnd data s.next t else .copy data (acquiredOffset s.next t) 0⟩) := by
    simp [step, State.produce, State.exchanged, State.setWorker, hle]
  cases hlocked : t.locked with
  | false =>
      simp only [hlocked, Bool.false_eq_true, if_false] at hclear ⊢
      generalize hs₂ : s.exchanged w data t ⟨.at s.next.off false, .copy data (acquiredOffset s.next t) 0⟩ = s₂ at hclear
      have hworker : s₂.workers w = ⟨.at s.next.off false, .copy data (acquiredOffset s.next t) 0⟩ := by
        rw [← hs₂]
        exact workers_setWorker_self ..
      obtain ⟨cells, hcopies⟩ := produce_copies (by rw [hworker]) (by simp [hworker]) (Nat.zero_add _) 2
      have hcount : 5 + data.length = data.length + 1 + 2 + 1 + 1 := by omega
      have hnext : t = { t with locked := false } := by
        rw [← hlocked]
      refine ⟨cells, s₂.wraps, ?_⟩
      rw [hcount, List.replicate_succ, run_cons hexchange, List.replicate_succ, run_cons hclear, hcopies, ← hnext]
      exact congrArg Except.ok (h.after (t := t) hs₂.symm)
  | true =>
      obtain ⟨hle', hnone⟩ := hlock hlocked
      simp only [hlocked, if_true] at hclear ⊢
      have hend : step (s.exchanged w data t ⟨.at s.next.off false, .storeEnd data s.next t⟩) (.produce w false) =
          .ok { s.exchanged w data t ⟨.at s.next.off false, .unlock data s.next t⟩ with fin := some s.next.off } := by
        rw [step, State.produce, State.exchanged, workers_setWorker_self]
        simp only [State.exchanged, State.setCall, State.setWorker, Function.update_idem, Function.update_self, hle',
          hnone, and_self, if_true]
      generalize hs₂ : ({ s.exchanged w data t ⟨.at s.next.off false, .copy data (acquiredOffset s.next t) 0⟩ with
        next := { t with locked := false }, fin := some s.next.off } : State α) = s₂
      have hunlock : step { s.exchanged w data t ⟨.at s.next.off false, .unlock data s.next t⟩ with
          fin := some s.next.off } (.produce w false) = .ok s₂ := by
        rw [← hs₂, step, State.produce]
        simp only [State.exchanged, State.setCall, State.setWorker, Function.update_idem, Function.update_self]
      have hworker : s₂.workers w = ⟨.at s.next.off false, .copy data (acquiredOffset s.next t) 0⟩ := by
        rw [← hs₂]
        exact workers_setWorker_self ..
      obtain ⟨cells, hcopies⟩ := produce_copies (by rw [hworker]) (by simp [hworker]) (Nat.zero_add _) 0
      have hcount : 5 + data.length = data.length + 1 + 0 + 1 + 1 + 1 + 1 := by omega
      refine ⟨cells, s₂.wraps, ?_⟩
      rw [hcount, List.replicate_succ, run_cons hexchange, List.replicate_succ, run_cons hclear, List.replicate_succ,
        run_cons hend, List.replicate_succ, run_cons hunlock, hcopies]
      exact congrArg Except.ok (h.after (t := t) hs₂.symm)

end Produce

section Consume

def State.withConsumer (s : State α) (c : Consuming α) : State α := { s with consumer := c }

theorem run_of_append {as bs : List (Action α)} {s₁ : State α} {r : Except Fault (State α)} (h : run step s as = .ok s₁)
    (h' : run step s₁ bs = r) : run step s (as ++ bs) = r := by
  rw [run_append, h]
  exact h'

theorem consume_scans (hquiet : ∀ w, s.workers w = ⟨.max, .idle⟩) {next i n : Nat}
    (hcons : s.consumer = .scan next i none) (hn : i + n = s.nworkers) :
    run step s (List.replicate n .consume) = .ok (s.withConsumer (.scan next s.nworkers none)) := by
  induction n generalizing s i with
  | zero =>
      obtain rfl : i = s.nworkers := hn
      rw [List.replicate_zero, run_nil, State.withConsumer, ← hcons]
  | succ n ih =>
      have hstep : step s .consume = .ok (s.withConsumer (.scan next (i + 1) none)) := by
        simp only [step, State.consume, hcons, if_pos (show i < s.nworkers by omega), hquiet i]
        rfl
      rw [List.replicate_succ, run_cons hstep]
      exact ih (s := s.withConsumer _) hquiet rfl (by change i + 1 + n = s.nworkers; omega)

theorem consume_decides (hquiet : ∀ w, s.workers w = ⟨.max, .idle⟩) (hcons : s.consumer = .loadNext)
    (hunlocked : s.next.locked = false) (hnext : s.next.off < s.space) (hne : s.written ≠ s.next.off) :
    run step s (List.replicate (s.nworkers + 2) .consume) = s.finishScan s.next.off none := by
  have hload : step s .consume = .ok (s.withConsumer (.scan s.next.off 0 none)) := by
    simp only [step, State.consume, hcons, hunlocked, hnext, hne, if_true, if_false, Bool.false_eq_true]
    rfl
  have hscan := consume_scans (s := s.withConsumer (.scan s.next.off 0 none)) hquiet rfl (Nat.zero_add _)
  rw [List.replicate_succ, run_cons hload, List.replicate_succ']
  refine run_of_append hscan ?_
  rw [run_singleton]
  change (if s.nworkers < s.nworkers then _ else _) = _
  rw [if_neg (lt_irrefl _)]
  rfl

theorem consume_copies (h : Sound s L) {size n : Nat} {copied : List α} (hcons : s.consumer = .copy size copied)
    (hn : copied.length + n = size) :
    ∃ all, run step s (List.replicate n .consume) = .ok (s.withConsumer (.copy size all)) ∧ all.length = size ∧
      Sound (s.withConsumer (.copy size all)) L := by
  induction n generalizing s copied with
  | zero => exact ⟨copied, by rw [List.replicate_zero, run_nil, State.withConsumer, ← hcons], hn,
      by rw [State.withConsumer, ← hcons]; exact h⟩
  | succ n ih =>
      have hlt : copied.length < size := by omega
      have hstep : step s .consume =
          .ok (s.withConsumer (.copy size (copied ++ [s.cells (s.written + copied.length)]))) := by
        simp only [step, State.consume, hcons, if_pos hlt]
        rfl
      obtain ⟨all, hrun, hall, hsound⟩ := ih (h.copyOut hcons hlt) rfl (by rw [List.length_append]; simp; omega)
      exact ⟨all, by rw [List.replicate_succ, run_cons hstep]; exact hrun, hall, hsound⟩

theorem sound_run_consume (h : Sound s L) {k : Nat} (hrun : run step s (List.replicate k .consume) = .ok s') :
    ∃ L', Sound s' L' := by
  induction k generalizing s L with
  | zero =>
      obtain rfl := Except.ok.inj hrun
      exact ⟨L, h⟩
  | succ k ih =>
      obtain ⟨s₁, hstep, L₁, h₁⟩ := h.consume
      rw [List.replicate_succ, run_cons (a := .consume) hstep] at hrun
      exact ih h₁ hrun

end Consume

def State.toRingbuf (s : State Int) : Ringbuf where
  space := s.space
  next := s.next.off
  written := s.written
  fin := s.fin
  data := s.acquired.flatten.drop s.consumed.length

section Refinement

variable {s s' : State Int} {L : Layout Int} {data : List Int}

theorem toRingbuf_produce (s : State Int) (data : List Int) :
    s.toRingbuf.produce data = (target s.space s.next data.length s.written).map fun t =>
      { s.toRingbuf with
        next := t.off, fin := if t.locked then some s.next.off else s.fin, data := s.toRingbuf.data ++ data } := by
  simp only [Ringbuf.produce, target, State.toRingbuf, ge_iff_le, gt_iff_lt]
  by_cases hfull : s.next.off < s.written ∧ s.written ≤ s.next.off + data.length
  · simp [hfull]
  · by_cases hend : s.space ≤ s.next.off + data.length
    · by_cases hexceed : s.space < s.next.off + data.length
      · by_cases hfree : s.written ≤ data.length
        · simp [hfull, hend, hexceed, hfree]
        · simp [hfull, hend, hexceed, hfree]
      · by_cases hfree : s.written = 0
        · simp [hend, hexceed, hfree]
        · simp [hfull, hend, hexceed, hfree]
    · simp [hfull, hend]

/-- A call of a producer that no other thread interrupts is a call of the sequential buffer. -/
theorem produce_alone (h : Quiet s) (hsound : Sound s L) {w : Nat} (hw : w < s.nworkers) (hpos : 0 < data.length)
    (hlen : data.length ≤ s.space) :
    ∃ s', run step s (.acquire w data :: List.replicate (8 + data.length) (.produce w false)) = .ok s' ∧ Quiet s' ∧
      match s.toRingbuf.produce data with
      | none => s' = s
      | some r => s'.toRingbuf = r ∧ s'.acquired = s.acquired ++ [data] := by
  have hobserves := acquire_observes h hsound.next_lt hw hpos hlen
  have hsplit : Action.acquire w data :: List.replicate (8 + data.length) (.produce w false) =
      (.acquire w data :: List.replicate 3 (.produce w false)) ++ List.replicate (5 + data.length) (.produce w false) := by
    rw [List.cons_append, ← List.replicate_add]
    congr 2
    omega
  rw [hsplit, run_append, hobserves, toRingbuf_produce]
  cases htarget : target s.space s.next data.length s.written with
  | none =>
      refine ⟨s, ?_, h, rfl⟩
      have hgive : step (s.setWorker w ⟨.at s.next.off true, .giveUp⟩) (.produce w false) = .ok s := by
        rw [step, State.produce, workers_setWorker_self]
        simp only [setWorker_setWorker, h.setWorker_eq]
      have hcount : 5 + data.length = 4 + data.length + 1 := by omega
      rw [hcount, List.replicate_succ]
      exact (run_cons hgive).trans (produce_idle (by rw [h.producers]) _)
  | some t =>
      have hcases := target_cases hsound.written_lt htarget
      have hle : t.off ≤ s.space := by
        rcases hcases with ⟨hroom, rfl, -⟩ | ⟨-, -, -, rfl⟩ | ⟨-, -, -, rfl⟩
        · exact hroom.le
        · exact Nat.zero_le _
        · exact hlen
      have hlock : t.locked = true → s.written ≤ s.next.off ∧ s.fin = none := by
        intro ht
        rcases hcases with ⟨-, rfl, -⟩ | ⟨-, -, -, rfl⟩ | ⟨-, hbefore, -, rfl⟩
        · cases ht
        · cases ht
        · -- the producers are not ahead by a wrap-around yet
          refine ⟨hbefore, ?_⟩
          cases L with
          | flat front => exact hsound.fills.2.2
          | wrapped front back limit => exact absurd hsound.fills.2.2.1 (Nat.not_lt_of_le hbefore)
      obtain ⟨cells, wraps, hrun⟩ := produce_exchanges h hle hlock rfl
      refine ⟨_, hrun, ⟨h.producers, h.consumer, rfl⟩, ?_, rfl⟩
      have hconsumed : s.consumed.length ≤ s.acquired.flatten.length := by
        obtain ⟨released, hacquired, hconsumed⟩ := hsound.log
        rw [hacquired, hconsumed, List.flatten_append, List.length_append]
        exact Nat.le_add_right _ _
      have hdata : (s.acquired ++ [data]).flatten.drop s.consumed.length =
          s.acquired.flatten.drop s.consumed.length ++ data := by
        rw [List.flatten_append, List.flatten_singleton, List.drop_append_of_le_length hconsumed]
      simp only [State.toRingbuf, hdata]

theorem Sound.toRingbuf_data (h : Sound s L) : s.toRingbuf.data = (L.records.map Record.data).flatten := by
  obtain ⟨released, hacquired, hconsumed⟩ := h.log
  simp only [State.toRingbuf]
  rw [hacquired, hconsumed, List.flatten_append, List.drop_left]

theorem Sound.copied_eq {size : Nat} {copied : List Int} (h : Sound s L) (hcons : s.consumer = .copy size copied)
    (hlen : copied.length = size) : copied = s.toRingbuf.data.take size := by
  have hc := h.consumer
  rw [ConsumerSound, hcons] at hc
  obtain ⟨-, -, pre, hpre, hplaced, hproduced, hcopied⟩ := hc
  obtain ⟨hend, -⟩ := Chain.contents hplaced fun r hr =>
    h.contents r (Layout.mem_front (hpre.subset hr)) (hproduced r hr)
  have hall : copied = pre.flatMap Record.data := hcopied.eq_of_length (by omega)
  obtain ⟨rest, hrest⟩ : pre <+: L.records := by
    cases L with
    | flat front => exact hpre
    | wrapped front back limit => exact hpre.trans (List.prefix_append _ _)
  rw [h.toRingbuf_data, ← hrest, List.map_append, List.flatten_append, ← List.flatMap_def, ← hall, ← hlen,
    List.take_left]

theorem consume_releases (h : Sound s L) {size : Nat} (hcons : s.consumer = .copy size []) :
    ∃ s', run step s (List.replicate (size + 1) .consume) = .ok s' ∧ s'.consumer = .idle ∧ s'.workers = s.workers ∧
      s'.next = s.next ∧ s'.consumed = s.consumed ++ (s.toRingbuf.release size).1 ∧
        s'.toRingbuf = (s.toRingbuf.release size).2 := by
  obtain ⟨copied, hrun, hlen, hsound⟩ := consume_copies h hcons (Nat.zero_add _)
  obtain ⟨s', hrelease, -⟩ := hsound.release rfl (by omega)
  have htake : copied = s.toRingbuf.data.take size := hsound.copied_eq rfl hlen
  have hstep : step (s.withConsumer (.copy size copied)) .consume = .ok s' := by
    rw [← hrelease]
    change (if copied.length < size then _ else _) = _
    rw [if_neg (by omega)]
  refine ⟨s', ?_, ?_⟩
  · rw [List.replicate_succ']
    exact run_of_append hrun ((run_singleton _ _).trans hstep)
  · obtain ⟨s₁, hok, rfl⟩ := exists_of_map_eq_ok hrelease
    rw [State.release] at hok
    split at hok
    · obtain rfl := Except.ok.inj hok
      refine ⟨rfl, rfl, rfl, congrArg (s.consumed ++ ·) htake, ?_⟩
      have hdrop : s.acquired.flatten.drop (s.consumed ++ copied).length = s.toRingbuf.data.drop size := by
        rw [List.length_append, hlen, ← List.drop_drop]
        rfl
      exact congrArg (Ringbuf.mk s.space s.next.off (if s.written + size = s.space then 0 else s.written + size) s.fin)
        hdrop
    · cases hok

def Consumed (s s' : State Int) (r : List Int × Ringbuf) : Prop :=
  Quiet s' ∧ s'.consumed = s.consumed ++ r.1 ∧ s'.toRingbuf = r.2

theorem consume_delivers (h : Sound s L) (hquiet : ∀ w, s.workers w = ⟨.max, .idle⟩) (hcons : s.consumer = .loadNext)
    (hunlocked : s.next.locked = false) {size : Nat} (hne : s.written ≠ s.next.off)
    (hfinish : s.finishScan s.next.off none = .ok (s.withConsumer (.copy size []))) :
    ∃ k s', run step s (List.replicate k .consume) = .ok s' ∧ Consumed s s' (s.toRingbuf.release size) := by
  have hdecide := (consume_decides hquiet hcons hunlocked h.next_lt hne).trans hfinish
  obtain ⟨L₁, h₁⟩ := sound_run_consume h hdecide
  obtain ⟨s', hrun, hidle, hworkers, hnext, hconsumed, hto⟩ := consume_releases h₁ rfl
  refine ⟨s.nworkers + 2 + (size + 1), s', ?_, ⟨?_, hidle, ?_⟩, hconsumed, hto⟩
  · rw [List.replicate_add]
    exact run_of_append hdecide hrun
  · intro w
    rw [hworkers]
    exact hquiet w
  · rw [hnext]
    exact hunlocked

/-- The call from where it observes NEXT, unless the consumer wraps around. -/
theorem consume_observes (h : Sound s L) (hquiet : ∀ w, s.workers w = ⟨.max, .idle⟩) (hcons : s.consumer = .loadNext)
    (hunlocked : s.next.locked = false) (hend : s.next.off < s.written → s.written ≠ min s.space (s.fin.getD s.space)) :
    ∃ k s', run step s (List.replicate k .consume) = .ok s' ∧ Consumed s s' s.toRingbuf.consume := by
  have hwritten := h.written_lt
  have hnext := h.next_lt
  have hreset : s.consumer ≠ .resetWritten := by simp [hcons]
  by_cases hempty : s.written = s.next.off
  · have hload : step s .consume = .ok (s.withConsumer .idle) := by
      simp only [step, State.consume, hcons, hunlocked, Bool.false_eq_true, if_false]
      rw [if_pos hnext, if_pos hempty]
      rfl
    have hnone : s.toRingbuf.consume = ([], s.toRingbuf) := by
      rw [Ringbuf.consume]
      exact if_pos hempty
    refine ⟨1, _, (run_singleton _ _).trans hload, ⟨hquiet, rfl, hunlocked⟩, ?_, ?_⟩
    · rw [hnone, List.append_nil]
      rfl
    · rw [hnone]
      rfl
  · have hempty' : s.toRingbuf.written ≠ s.toRingbuf.next := hempty
    by_cases hwrap : s.next.off < s.written
    · have hne := hend hwrap
      have hlimit : s.written ≤ min s.space (s.fin.getD s.space) := by
        cases L with
        | flat front => exact absurd h.fills.1.le (Nat.not_le_of_gt hwrap)
        | wrapped front back limit =>
            rw [h.limit_eq hunlocked hreset]
            exact h.fills.1.le
      have hconsume : s.toRingbuf.consume =
          s.toRingbuf.release (min s.space (s.fin.getD s.space) - s.written) := by
        rw [Ringbuf.consume, if_neg hempty']
        exact (if_pos hwrap).trans (if_neg hne)
      rw [hconsume]
      refine consume_delivers h hquiet hcons hunlocked hempty ?_
      have hle : min s.space (s.fin.getD s.space) ≤ s.space := min_le_left _ _
      rw [State.finishScan, if_pos hwrap]
      simp only [hne, and_false, if_false, Option.getD_none, min_self, Option.all_none, true_and]
      rw [if_pos ⟨hlimit, by omega⟩, if_neg (by omega)]
      rfl
    · have hconsume : s.toRingbuf.consume = s.toRingbuf.release (s.next.off - s.written) := by
        rw [Ringbuf.consume, if_neg hempty']
        exact if_neg hwrap
      rw [hconsume]
      refine consume_delivers h hquiet hcons hunlocked hempty ?_
      rw [State.finishScan, if_neg hwrap]
      simp only [Option.getD_none, min_self]
      rw [if_pos ⟨by omega, by omega⟩, if_neg (by omega)]
      rfl

/-- A call of the consumer that no producer interrupts is a call of the sequential buffer. -/
theorem consume_alone (h : Quiet s) (hsound : Sound s L) :
    ∃ k s', run step s (.beginConsume :: List.replicate k .consume) = .ok s' ∧ Consumed s s' s.toRingbuf.consume := by
  have hbegin : step s .beginConsume = .ok (s.withConsumer .loadNext) := by
    simp only [step, State.beginConsume, h.consumer]
    rfl
  have hload : Sound (s.withConsumer .loadNext) L := hsound.setConsumer (by simp [h.consumer]) trivial
  by_cases hend : s.next.off < s.written → s.written ≠ min s.space (s.fin.getD s.space)
  · obtain ⟨k, s', hrun, hconsumed⟩ := consume_observes hload h.producers rfl h.unlocked hend
    exact ⟨k, s', (run_cons hbegin).trans hrun, hconsumed⟩
  · -- the consumer has come to the limit, and starts over from zero
    obtain ⟨hwrap, hlimit⟩ : s.next.off < s.written ∧ s.written = min s.space (s.fin.getD s.space) := by
      by_contra hcontra
      exact hend fun hlt heq => hcontra ⟨hlt, heq⟩
    have hfinish : (s.withConsumer .loadNext).finishScan s.next.off none = .ok (s.withConsumer .clearEnd) := by
      rw [State.finishScan]
      change (if s.next.off < s.written then _ else _) = _
      rw [if_pos hwrap]
      exact if_pos ⟨rfl, hlimit⟩
    have hdecide := (consume_decides (s := s.withConsumer .loadNext) h.producers rfl h.unlocked hsound.next_lt
      (Nat.ne_of_gt hwrap)).trans hfinish
    generalize hs₂ : ({ s with written := 0, fin := none, consumer := .loadNext } : State Int) = s₂
    have hreset : run step (s.withConsumer .clearEnd) (List.replicate 2 .consume) = .ok s₂ := by
      rw [← hs₂]
      rfl
    have hturn : run step (s.withConsumer .loadNext) (List.replicate (s.nworkers + 2 + 2) .consume) = .ok s₂ := by
      rw [List.replicate_add]
      exact run_of_append hdecide hreset
    obtain ⟨L₂, h₂⟩ := sound_run_consume hload hturn
    have hsame : s₂.toRingbuf.consume = s.toRingbuf.consume := by
      have hne : s.toRingbuf.written ≠ s.toRingbuf.next := Nat.ne_of_gt hwrap
      have hturned : s.toRingbuf.consume =
          if 0 = s.next.off then ([], s₂.toRingbuf) else s₂.toRingbuf.release s.next.off := by
        rw [Ringbuf.consume, if_neg hne, ← hs₂]
        exact (if_pos hwrap).trans (if_pos hlimit)
      rw [hturned, Ringbuf.consume, ← hs₂]
      exact if_congr Iff.rfl rfl (if_neg (Nat.not_lt_zero _))
    subst hs₂
    obtain ⟨k, s', hrun, hquiet, hconsumed, hto⟩ := consume_observes h₂ h.producers rfl h.unlocked
      fun hlt => absurd hlt (Nat.not_lt_zero _)
    refine ⟨s.nworkers + 2 + 2 + k, s', ?_, hquiet, ?_, ?_⟩
    · rw [run_cons hbegin, List.replicate_add]
      exact run_of_append hturn hrun
    · rw [hconsumed, hsame]
    · rw [hto, hsame]

end Refinement

section Lock

def Owned (s : State α) : Prop := s.next.locked = true → ∃ w, (s.workers w).call.locks = true

theorem Owned.setWorker (h : Owned s) {x : Worker α} (hlocks : (s.workers w).call.locks = true → x.call.locks = true)
    (hnext : s'.next = s.next) (hs' : s'.workers = (s.setWorker w x).workers) : Owned s' := by
  intro hlocked
  rw [hnext] at hlocked
  obtain ⟨v, hv⟩ := h hlocked
  by_cases hvw : v = w
  · subst hvw
    exact ⟨v, by rw [hs', workers_setWorker_self]; exact hlocks hv⟩
  · refine ⟨v, ?_⟩
    rw [hs', State.setWorker]
    simp only [Function.update_of_ne hvw, hv]

theorem owned_produce (h : Owned s) {spurious : Bool} (hok : s.produce w spurious = .ok s') : Owned s' := by
  rw [State.produce] at hok
  cases hcall : (s.workers w).call with
  | idle =>
      simp only [hcall] at hok
      obtain rfl := Except.ok.inj hok
      exact h
  | loadNext data =>
      simp only [hcall] at hok
      split at hok
      · obtain rfl := Except.ok.inj hok
        exact h
      · split at hok
        · obtain rfl := Except.ok.inj hok
          exact h.setWorker (by simp [hcall, Producing.locks]) rfl rfl
        · cases hok
  | storeSeen data seen =>
      simp only [hcall] at hok
      obtain rfl := Except.ok.inj hok
      exact h.setWorker (by simp [hcall, Producing.locks]) rfl rfl
  | loadWritten data seen =>
      simp only [hcall] at hok
      split at hok
      · obtain rfl := Except.ok.inj hok
        exact h.setWorker (by simp [hcall, Producing.locks]) rfl rfl
      · obtain rfl := Except.ok.inj hok
        exact h.setWorker (by simp [hcall, Producing.locks]) rfl rfl
  | giveUp =>
      simp only [hcall] at hok
      obtain rfl := Except.ok.inj hok
      exact h.setWorker (by simp [hcall, Producing.locks]) rfl rfl
  | compareExchange data seen t =>
      simp only [hcall] at hok
      obtain rfl := Except.ok.inj hok
      rw [State.compareExchange]
      split
      · intro hlocked
        exact ⟨w, by rw [State.setCall, workers_setWorker_self]; exact hlocked⟩
      · exact h.setWorker (by simp [hcall, Producing.locks]) rfl rfl
  | clearUnstable data seen t =>
      simp only [hcall] at hok
      split at hok
      · obtain rfl := Except.ok.inj hok
        refine h.setWorker (fun hl => ?_) rfl rfl
        rw [hcall] at hl
        simp only [if_pos (show t.locked = true from hl)]
        rfl
      · cases hok
  | storeEnd data seen t =>
      simp only [hcall] at hok
      split at hok
      · obtain rfl := Except.ok.inj hok
        exact h.setWorker (fun _ => rfl) rfl rfl
      · cases hok
  | unlock data seen t =>
      simp only [hcall] at hok
      obtain rfl := Except.ok.inj hok
      exact fun hlocked => by cases hlocked
  | copy data offset copied =>
      simp only [hcall] at hok
      split at hok
      · obtain rfl := Except.ok.inj hok
        exact h.setWorker (by simp [hcall, Producing.locks]) rfl rfl
      · split at hok
        · obtain rfl := Except.ok.inj hok
          exact h.setWorker (by simp [hcall, Producing.locks]) rfl rfl
        · cases hok

theorem owned_step (h : Owned s) {a : Action α} (hok : step s a = .ok s') : Owned s' := by
  cases a with
  | acquire w data =>
      simp only [step, State.acquire] at hok
      split at hok
      · cases hok
      · cases hcall : (s.workers w).call with
        | idle =>
            simp only [hcall] at hok
            split at hok
            · obtain rfl := Except.ok.inj hok
              exact h.setWorker (by simp [hcall, Producing.locks]) rfl rfl
            · cases hok
        | _ =>
            simp only [hcall] at hok
            obtain rfl := Except.ok.inj hok
            exact h
  | produce w spurious => exact owned_produce h hok
  | beginConsume =>
      obtain rfl := Except.ok.inj hok
      have hframe := consumerFrame_beginConsume s
      rw [Owned, hframe.next, hframe.workers]
      exact h
  | consume =>
      have hframe := consumerFrame_consume hok
      rw [Owned, hframe.next, hframe.workers]
      exact h

end Lock

section Alone

variable {s s' : State Int} {space nworkers : Nat} {cells : Nat → Int} {as : List (Action Int)}

theorem quiet_of_idle {L : Layout Int} (hsound : Sound s L) (howned : Owned s)
    (hidle : ∀ w, (s.workers w).call = .idle) (hcons : s.consumer = .idle) : Quiet s where
  producers w := by
    have hx := hsound.workers w
    simp only [Worker.Sound, hidle w] at hx
    cases hworker : s.workers w
    have hcall := hidle w
    rw [hworker] at hx hcall
    obtain rfl := hx
    obtain rfl := hcall
    rfl
  consumer := hcons
  unlocked := by
    rw [← Bool.not_eq_true]
    intro hlocked
    obtain ⟨w, hw⟩ := howned hlocked
    rw [hidle w] at hw
    cases hw

/-- Whenever all threads are between their calls, a call that is not interrupted does to the buffer what the
sequential one does. -/
theorem ringbuf_refines (hsetup : setup space nworkers cells = some s) (hpos : 0 < space)
    (h : Reaches step (fun s a => a.Proper s) s as s') (hwraps : s'.wraps < 2 ^ 31)
    (hidle : ∀ w, (s'.workers w).call = .idle) (hcons : s'.consumer = .idle) :
    (∀ w data, w < s'.nworkers → 0 < data.length → data.length ≤ s'.space →
      ∃ s'', run step s' (.acquire w data :: List.replicate (8 + data.length) (.produce w false)) = .ok s'' ∧ Quiet s'' ∧
        match s'.toRingbuf.produce data with
        | none => s'' = s'
        | some r => s''.toRingbuf = r ∧ s''.acquired = s'.acquired ++ [data]) ∧
      ∃ k s'', run step s' (.beginConsume :: List.replicate k .consume) = .ok s'' ∧
        Consumed s' s'' s'.toRingbuf.consume := by
  obtain ⟨L, hsound⟩ := sound_of_reaches hsetup hpos h hwraps
  have howned : Owned s' := by
    refine h.invariant (P := Owned) ?_ fun _ _ _ ho _ hok => owned_step ho hok
    rw [setup] at hsetup
    split at hsetup
    · cases hsetup
    · obtain rfl := Option.some.inj hsetup
      exact fun hlocked => by cases hlocked
  have hquiet := quiet_of_idle hsound howned hidle hcons
  exact ⟨fun w data hw hpos hlen => produce_alone hquiet hsound hw hpos hlen, consume_alone hquiet hsound⟩

def wrappedAround : List (Action Int) :=
  .acquire 0 [1, 2, 3] :: List.replicate 9 (.produce 0 false) ++ .beginConsume :: List.replicate 7 .consume ++
    .acquire 0 [4, 5] :: List.replicate 10 (.produce 0 false)

def Producing.isIdle : Producing α → Bool
  | .idle => true
  | _ => false

def Consuming.isIdle : Consuming α → Bool
  | .idle => true
  | _ => false

theorem ringbuf_refines_wrappedAround : ∃ s s' : State Int, setup 4 1 (fun _ => 0) = some s ∧
    Reaches step (fun s a => a.Proper s) s wrappedAround s' ∧ s'.toRingbuf = ⟨4, 2, 3, some 3, [4, 5]⟩ ∧
      ∃ k s'', run step s' (.beginConsume :: List.replicate k .consume) = .ok s'' ∧ Quiet s'' ∧
        s''.consumed = [1, 2, 3, 4, 5] ∧ s''.toRingbuf = ⟨4, 2, 2, none, []⟩ := by
  have hsetup : setup 4 1 (fun _ => 0) = some ({ space := 4, nworkers := 1, cells := fun _ => 0 } : State Int) := rfl
  have hrun : (wrappedAround.foldlM (checked (fun s a => a.isProper s) step)
      ({ space := 4, nworkers := 1, cells := fun _ => 0 } : State Int)).map (fun s => (s.toRingbuf, s.wraps, s.consumed,
        s.nworkers, (s.workers 0).call.isIdle, s.consumer.isIdle)) =
        some (⟨4, 2, 3, some 3, [4, 5]⟩, 1, [1, 2, 3], 1, true, true) := by
    decide +kernel
  obtain ⟨s', hs, heq⟩ := Option.map_eq_some_iff.mp hrun
  simp only [Prod.mk.injEq] at heq
  obtain ⟨hto, hwraps, hconsumed, hnworkers, hproducer, hconsumer⟩ := heq
  have hreaches := Reaches.of_checked proper_of_isProper hs
  obtain ⟨L, hsound⟩ := sound_of_reaches hsetup (by decide) hreaches (by rw [hwraps]; decide)
  have hidle : ∀ w, (s'.workers w).call = .idle := by
    intro w
    cases w with
    | zero =>
        cases hcall : (s'.workers 0).call with
        | idle => rfl
        | _ => simp [hcall, Producing.isIdle] at hproducer
    | succ w => exact hsound.inside _ (by rw [hnworkers]; exact Nat.le_add_left _ _)
  have hcons : s'.consumer = .idle := by
    cases hc : s'.consumer with
    | idle => rfl
    | _ => simp [hc, Consuming.isIdle] at hconsumer
  obtain ⟨-, k, s'', hlast, hquiet, hall, hafter⟩ :=
    ringbuf_refines hsetup (by decide) hreaches (by rw [hwraps]; decide) hidle hcons
  refine ⟨_, s', hsetup, hreaches, hto, k, s'', hlast, hquiet, ?_, ?_⟩
  · rw [hall, hto, hconsumed]
    decide +kernel
  · rw [hafter, hto]
    decide +kernel

end Alone

end Mallob.RingbufThreads
