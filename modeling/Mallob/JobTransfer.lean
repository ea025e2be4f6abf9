import Mallob.Codecs
import Mallob.CollectiveAssignment
import Mallob.JobDescription

namespace Mallob.JobTransfer

open ByteLayout Codecs Codec

theorem ofCode_eq_some (application : Application) (code : CInt) :
    Application.ofCode code = some application ↔ code = application.code := by
  constructor
  · intro h
    rw [Application.ofCode] at h
    split_ifs at h with h0 h1 h2
    · rw [← Option.some.inj h, h0]
      rfl
    · rw [← Option.some.inj h, h1]
      rfl
    · rw [← Option.some.inj h, h2]
      rfl
  · rintro rfl
    exact Application.ofCode_code application

def applicationCode : Codec Application := (word 4).restrict Application.code Application.ofCode ofCode_eq_some

structure JobRequest where
  jobId : CInt
  application : Application
  rootRank : CInt
  requestingNodeRank : CInt
  requestedNodeIndex : CInt
  revision : CInt
  timeOfBirth : CFloat
  numHops : CInt
  balancingEpoch : CInt
deriving DecidableEq

namespace JobRequest

def getTransferSize : Nat := 7 * 4 + 4 + 4

def codec : Codec JobRequest :=
  record ((word 4).pair (applicationCode.pair ((word 4).pair ((word 4).pair ((word 4).pair ((word 4).pair
      ((word 4).pair ((word 4).pair (word 4)))))))))
    (fun r => (r.jobId, r.application, r.rootRank, r.requestingNodeRank, r.requestedNodeIndex, r.revision,
      r.timeOfBirth, r.numHops, r.balancingEpoch))
    (fun b => ⟨b.1, b.2.1, b.2.2.1, b.2.2.2.1, b.2.2.2.2.1, b.2.2.2.2.2.1, b.2.2.2.2.2.2.1, b.2.2.2.2.2.2.2.1,
      b.2.2.2.2.2.2.2.2⟩)
    (fun _ => rfl) fun _ => rfl

theorem sized_codec : codec.Sized getTransferSize := by
  have hword := sized_word 4
  have hcode : applicationCode.Sized 4 := hword.restrict Application.code Application.ofCode ofCode_eq_some
  have hbody := hword.pair (hword.pair (hword.pair (hword.pair (hword.pair (hword.pair hword)))))
  exact (hword.pair (hcode.pair hbody)).record _ _

def toRequest (seconds : CFloat → ℚ) (r : JobRequest) : Mallob.JobRequest where
  jobId := r.jobId.toInt
  rootRank := r.rootRank.toInt
  requestingNodeRank := r.requestingNodeRank.toInt
  requestedNodeIndex := r.requestedNodeIndex.toInt
  revision := r.revision.toInt
  timeOfBirth := seconds r.timeOfBirth
  numHops := r.numHops.toInt
  balancingEpoch := r.balancingEpoch.toInt
  application := r.application

end JobRequest

structure OneshotJobRequestRejection where
  request : JobRequest
  isChildStillDormant : Bool

namespace OneshotJobRequestRejection

def boolByte (b : Bool) : UInt8 := if b then 1 else 0

def serialize (r : OneshotJobRequestRejection) : List UInt8 :=
  JobRequest.codec.encode r.request ++ [boolByte r.isChildStillDormant]

/-- The Boolean is the last byte, wherever the request ends. -/
def deserialize (packed : List UInt8) : Option OneshotJobRequestRejection :=
  match JobRequest.codec.decode packed with
  | none => none
  | some (request, _) =>
      match packed.getLast? with
      | none => none
      | some byte => if byte = 0 then some ⟨request, false⟩ else if byte = 1 then some ⟨request, true⟩ else none

theorem deserialize_serialize (r : OneshotJobRequestRejection) : deserialize r.serialize = some r := by
  rw [deserialize, serialize, JobRequest.codec.decode_encode]
  simp only [List.getLast?_append, List.getLast?_singleton, Option.some_or]
  cases r with
  | mk request isChildStillDormant => cases isChildStillDormant <;> rfl

end OneshotJobRequestRejection

/-- A size as an int. A negative one is no size of a memory. -/
def intSize (n : Nat) : Option Nat := if n % 2 ^ 32 < 2 ^ 31 then some (n % 2 ^ 32) else none

theorem intSize_of_lt {n : Nat} (h : n < 2 ^ 31) : intSize n = some n := by
  rw [intSize, Nat.mod_eq_of_lt (by omega), if_pos h]

theorem lt_of_intSize {n k : Nat} (h : intSize n = some k) (hn : n < 2 ^ 32) : n = k ∧ n < 2 ^ 31 := by
  rw [intSize, Nat.mod_eq_of_lt hn] at h
  split at h
  · next hlt => exact ⟨Option.some.inj h, hlt⟩
  · cases h

structure JobMessage where
  jobId : CInt
  revision : CInt
  tag : CInt
  epoch : CInt
  checksumCount : SizeT
  checksumVal : SizeT
  payload : List CInt
deriving DecidableEq

namespace JobMessage

def head : Codec (CInt × CInt × CInt × CInt × SizeT × SizeT) :=
  (word 4).pair ((word 4).pair ((word 4).pair ((word 4).pair ((word 8).pair (word 8)))))

def fields (m : JobMessage) : CInt × CInt × CInt × CInt × SizeT × SizeT :=
  (m.jobId, m.revision, m.tag, m.epoch, m.checksumCount, m.checksumVal)

/-- The sizes of the memory and of the payload are ints, and the payload has to fit into the memory. -/
def serialize (m : JobMessage) : Option (List UInt8) := do
  let size ← intSize (4 * 4 + m.payload.length * 4 + 16)
  let n ← intSize (m.payload.length * 4)
  if 32 + n ≤ size then return head.encode m.fields ++ (arrayBytes m.payload).take n else none

def deserialize (packed : List UInt8) : Option JobMessage := do
  let (f, rest) ← head.decode packed
  let n ← intSize rest.length
  if n % 4 = 0 then
    let payload ← readArray 4 (n / 4) rest
    return ⟨f.1, f.2.1, f.2.2.1, f.2.2.2.1, f.2.2.2.2.1, f.2.2.2.2.2, payload⟩
  else none

theorem sized_head : head.Sized 32 := by
  have hwords := (sized_word 4).pair ((sized_word 8).pair (sized_word 8))
  exact (sized_word 4).pair ((sized_word 4).pair ((sized_word 4).pair hwords))

theorem serialize_eq_some {m : JobMessage} {packed : List UInt8} (hpayload : m.payload.length < 2 ^ 29) :
    m.serialize = some packed ↔ packed = head.encode m.fields ++ arrayBytes m.payload ∧ packed.length < 2 ^ 31 := by
  have harray : (arrayBytes m.payload).length = m.payload.length * 4 := by rw [length_arrayBytes, mul_comm]
  have htake : (arrayBytes m.payload).take (m.payload.length * 4) = arrayBytes m.payload :=
    List.take_of_length_le harray.le
  have hlength : (head.encode m.fields ++ arrayBytes m.payload).length = 4 * 4 + m.payload.length * 4 + 16 := by
    rw [List.length_append, sized_head, harray]
    omega
  have hn : intSize (m.payload.length * 4) = some (m.payload.length * 4) := intSize_of_lt (by omega)
  rw [serialize, hn]
  constructor
  · intro h
    obtain ⟨size, hsize, h⟩ := Option.bind_eq_some_iff.mp h
    obtain ⟨rfl, hlt⟩ := lt_of_intSize hsize (by omega)
    rw [Option.bind_eq_bind, Option.bind_some, if_pos (by omega), htake] at h
    obtain rfl := Option.some.inj h
    exact ⟨rfl, hlength.trans_lt hlt⟩
  · rintro ⟨rfl, hlt⟩
    rw [hlength] at hlt
    rw [intSize_of_lt hlt, Option.bind_eq_bind, Option.bind_some, Option.bind_some, if_pos (by omega), htake]
    rfl

theorem deserialize_eq_some {m : JobMessage} {packed : List UInt8} (hpacked : packed.length < 2 ^ 31) :
    deserialize packed = some m ↔ packed = head.encode m.fields ++ arrayBytes m.payload := by
  constructor
  · intro h
    obtain ⟨⟨f, rest⟩, hdecode, h⟩ := Option.bind_eq_some_iff.mp h
    obtain ⟨n, hn, h⟩ := Option.bind_eq_some_iff.mp h
    have hfront := (head.decode_eq_some packed f rest).mp hdecode
    rw [hfront, List.length_append] at hpacked
    obtain ⟨rfl, -⟩ := lt_of_intSize hn (by omega)
    split at h
    · next hwhole =>
        obtain ⟨payload, hread, h⟩ := Option.bind_eq_some_iff.mp h
        obtain ⟨hlength, hstarts⟩ := readArray_eq_some.mp hread
        have hrest : arrayBytes payload = rest := hstarts.eq_of_length (by rw [length_arrayBytes]; omega)
        obtain rfl := Option.some.inj h
        rw [hfront, ← hrest]
        rfl
    · cases h
  · rintro rfl
    have hlength : (arrayBytes m.payload).length = 4 * m.payload.length := length_arrayBytes m.payload
    have hread : readArray 4 (4 * m.payload.length / 4) (arrayBytes m.payload) = some m.payload :=
      readArray_eq_some.mpr ⟨by omega, List.prefix_refl _⟩
    rw [List.length_append, hlength] at hpacked
    rw [deserialize, head.decode_encode, Option.bind_eq_bind, Option.bind_some]
    simp only [hlength, intSize_of_lt (show 4 * m.payload.length < 2 ^ 31 by omega), Option.bind_eq_bind,
      Option.bind_some, Nat.mul_mod_right, if_true, hread]
    rfl

/-- Below the sizes that are negative as ints, the memories that are accepted are those of messages, each of the message
that it is read as. -/
theorem deserialize_iff (m : JobMessage) (packed : List UInt8) :
    deserialize packed = some m ∧ packed.length < 2 ^ 31 ↔
      m.serialize = some packed ∧ m.payload.length < 2 ^ 29 := by
  constructor
  · rintro ⟨h, hpacked⟩
    have hmemory := (deserialize_eq_some hpacked).mp h
    have hlength := congrArg List.length hmemory
    rw [List.length_append, length_arrayBytes] at hlength
    have hpayload : m.payload.length < 2 ^ 29 := by omega
    exact ⟨(serialize_eq_some hpayload).mpr ⟨hmemory, hpacked⟩, hpayload⟩
  · rintro ⟨h, hpayload⟩
    obtain ⟨hmemory, hpacked⟩ := (serialize_eq_some hpayload).mp h
    exact ⟨(deserialize_eq_some hpacked).mpr hmemory, hpacked⟩

end JobMessage

end Mallob.JobTransfer
