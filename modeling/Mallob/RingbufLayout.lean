import Mallob.RingbufThreads

namespace Mallob.RingbufThreads

open RangeChains

variable {α : Type}

/-- A range that was acquired and has not been released: its producer, its offset and the one that the producer
has seen, its data, and whether it was produced. -/
structure Record (α : Type) where
  worker : Nat
  off : Nat
  seen : Nat
  data : List α
  produced : Bool

abbrev Placed (a b : Nat) (rs : List (Record α)) : Prop := Chain Record.off (fun r => r.data.length) a b rs

/-- The ranges in the order in which they were acquired. While the producers are ahead by a wrap-around, the ones
in front end at a limit and the other ones begin at zero. -/
inductive Layout (α : Type)
  | flat (front : List (Record α))
  | wrapped (front back : List (Record α)) (limit : Nat)

namespace Layout

def front : Layout α → List (Record α)
  | .flat front => front
  | .wrapped front _ _ => front

def records : Layout α → List (Record α)
  | .flat front => front
  | .wrapped front back _ => front ++ back

def mapRecords (f : Record α → Record α) : Layout α → Layout α
  | .flat front => .flat (front.map f)
  | .wrapped front back limit => .wrapped (front.map f) (back.map f) limit

def Fills (s : State α) : Layout α → Prop
  | .flat front => Placed s.written s.next.off front ∧ s.next.locked = false ∧ s.fin = none
  | .wrapped front back limit =>
      Placed s.written limit front ∧ Placed 0 s.next.off back ∧ s.next.off < s.written ∧ limit ≤ s.space ∧
        (s.next.locked = true → limit < s.space)

def Marked (s : State α) : Layout α → Prop
  | .flat _ => True
  | .wrapped _ _ limit =>
      (∀ e ∈ s.fin, e = limit) ∧
        (s.next.locked = false → (match s.consumer with | .resetWritten => False | _ => True) →
          s.fin = if limit = s.space then none else some limit)

/-- What is seen of a range that is not produced: its offset, or the limit for the one that exceeded it. -/
def Seen (space : Nat) (r : Record α) : Layout α → Prop
  | .flat _ => r.seen = r.off
  | .wrapped _ _ limit => r.seen = r.off ∨ r.seen = limit ∧ limit < space ∧ r.off = 0

end Layout

/-- A written offset which may have grown, and may have been reset since, is still good for a NEXT offset that
has stayed the same. -/
def Stale (observed written next : Nat) : Prop :=
  (observed ≤ next → observed ≤ written ∧ written ≤ next) ∧ (next < observed → observed ≤ written ∨ written ≤ next)

structure Observed (s : State α) (seen : Next) : Prop where
  unlocked : seen.locked = false
  lt : seen.off < s.space
  counter_le : seen.counter ≤ s.wraps
  off_le : seen.counter = s.wraps → seen.off ≤ s.next.off

def Aimed (s : State α) (len : Nat) (seen t : Next) : Prop :=
  ∃ observed, observed < s.space ∧ target s.space seen len observed = some t ∧
    (seen.counter = s.wraps → seen.off = s.next.off → Stale observed s.written seen.off)

structure Locking (s : State α) (L : Layout α) (seen t : Next) (fin : Option Nat) : Prop where
  next_eq : s.next = t
  locked : t.locked = true
  fin_eq : s.fin = fin
  limit_eq : ∃ front back, L = .wrapped front back seen.off

namespace Producing

def locks : Producing α → Bool
  | .clearUnstable _ _ t => t.locked
  | .storeEnd _ _ _ => true
  | .unlock _ _ _ => true
  | _ => false

end Producing

namespace Worker

def Unsettled (x : Worker α) : Prop := ∀ off, x.seenOff ≠ .at off false

def Sound (s : State α) (L : Layout α) (x : Worker α) : Prop :=
  match x.call with
  | .idle => x.seenOff = .max
  | .loadNext data => x.Unsettled ∧ 0 < data.length
  | .storeSeen data seen => x.Unsettled ∧ 0 < data.length ∧ Observed s seen
  | .loadWritten data seen => x.seenOff = .at seen.off true ∧ 0 < data.length ∧ Observed s seen
  | .giveUp => x.Unsettled
  | .compareExchange data seen t =>
      x.seenOff = .at seen.off true ∧ 0 < data.length ∧ Observed s seen ∧ Aimed s data.length seen t
  | .clearUnstable _ seen t =>
      x.seenOff = .at seen.off true ∧ t.off ≤ s.space ∧ (t.locked = true → Locking s L seen t none)
  | .storeEnd _ seen t => x.seenOff = .at seen.off false ∧ Locking s L seen t none
  | .unlock _ seen t => x.seenOff = .at seen.off false ∧ Locking s L seen t (some seen.off)
  | .copy data offset copied =>
      (∃ off, x.seenOff = .at off false) ∧ copied ≤ data.length ∧
        ∀ (i : Nat) (hi : i < data.length), i < copied → s.cells (offset + i) = data[i]

def Holds (x : Worker α) (r : Record α) : Prop :=
  x.call.holding = some (r.off, r.data) ∧ ∃ unstable, x.seenOff = .at r.seen unstable

end Worker

structure Scanned (s : State α) (L : Layout α) (next i : Nat) (ready : Option Nat) : Prop where
  ne : s.written ≠ next
  ahead : s.written < next → ∃ pre, pre <+: L.front ∧ Placed s.written next pre
  behind : next < s.written → s.next.locked = false ∧ ∃ front back limit, L = .wrapped front back limit
  boundary : ∀ v ∈ ready, ∃ pre, pre <+: L.front ∧ Placed s.written v pre
  observed : ∀ r ∈ L.records, r.produced = false → r.worker < i → s.written ≤ r.seen →
    (next < s.written ∨ r.seen < next) → ∃ v ∈ ready, v ≤ r.seen

structure Emptied (s : State α) (L : Layout α) : Prop where
  unlocked : s.next.locked = false
  layout : ∃ back, L = .wrapped [] back s.written ∧ ∀ r ∈ back, r.produced = false → r.seen < s.written

structure Copying (s : State α) (L : Layout α) (size : Nat) (copied : List α) : Prop where
  pos : 0 < size
  le : copied.length ≤ size
  source : ∃ pre, pre <+: L.front ∧ Placed s.written (s.written + size) pre ∧ (∀ r ∈ pre, r.produced = true) ∧
    copied <+: pre.flatMap Record.data

def ConsumerSound (s : State α) (L : Layout α) : Prop :=
  match s.consumer with
  | .idle => True
  | .loadNext => True
  | .scan next i ready => Scanned s L next i ready
  | .clearEnd => Emptied s L
  | .resetWritten => Emptied s L ∧ s.fin = none
  | .copy size copied => Copying s L size copied

/-- Where the ranges lie, and how far each thread has come with them. -/
structure Sound (s : State α) (L : Layout α) : Prop where
  next_lt : s.next.off < s.space
  written_lt : s.written < s.space
  counter_eq : s.next.counter = s.wraps
  fills : L.Fills s
  marked : L.Marked s
  nonempty : ∀ r ∈ L.records, 0 < r.data.length
  seen : ∀ r ∈ L.records, r.produced = false → L.Seen s.space r
  holds : ∀ r ∈ L.records, r.produced = false → r.worker < s.nworkers ∧ (s.workers r.worker).Holds r
  held : ∀ w off data, (s.workers w).call.holding = some (off, data) →
    ∃ r ∈ L.records, r.produced = false ∧ r.worker = w ∧ r.off = off ∧ r.data = data
  contents : ∀ r ∈ L.records, r.produced = true →
    ∀ (i : Nat) (hi : i < r.data.length), s.cells (r.off + i) = r.data[i]
  inside : ∀ w, s.nworkers ≤ w → (s.workers w).call = .idle
  workers : ∀ w, (s.workers w).Sound s L
  lock : ∀ w w', (s.workers w).call.locks = true → (s.workers w').call.locks = true → w = w'
  consumer : ConsumerSound s L
  log : ∃ released : List (List α), s.acquired = released ++ L.records.map Record.data ∧ s.consumed = released.flatten

end Mallob.RingbufThreads
