import Mallob.RawFormula
import Mallob.ByteLayout

namespace Mallob.SatReader

open ByteLayout (ofBytes)

def intAt (memory : Nat → UInt8) (i : Nat) : CInt :=
  ofBytes 4 [memory (4 * i), memory (4 * i + 1), memory (4 * i + 2), memory (4 * i + 3)]

def overwrite (bytes : List UInt8) (memory : Nat → UInt8) (a : Nat) : UInt8 := bytes.getD a (memory a)

def ints (content : List UInt8) : List CInt :=
  (List.range (content.length / 4)).map (intAt (overwrite content fun _ => 0))

inductive Source where
  | mapped
  | namedPipe
  | xzPipe
deriving DecidableEq

/-- Where the content comes from is told by the end of the file name. -/
def source (filename : List Char) : Source :=
  if 3 < filename.length ∧ filename.drop (filename.length - 3) = ".xz".toList ∨
      5 < filename.length ∧ filename.drop (filename.length - 5) = ".lzma".toList then .xzPipe
  else if 5 < filename.length ∧ filename.drop (filename.length - 5) = ".pipe".toList then .namedPipe
  else .mapped

/-- A file that can be opened, with the pieces in which a pipe hands out its content, the memory behind the
content or the buffer, and whether the program is terminating when the reader asks for the next piece. -/
structure Input where
  filename : List Char
  content : List UInt8
  chunks : List (List UInt8)
  chunks_flatten : chunks.flatten = content
  chunk_length : ∀ chunk ∈ chunks, 1 ≤ chunk.length ∧ chunk.length ≤ 4096
  beyond : Nat → UInt8
  isTerminating : Nat → Bool

/-- One inner loop: so many integers are taken from the start of a memory that begins with so many bytes
of the content. -/
structure Pass where
  memory : Nat → UInt8
  numBytes : Nat
  count : Nat

def Pass.processed (pass : Pass) : List CInt := (List.range pass.count).map (intAt pass.memory)

def Pass.Inside (pass : Pass) : Prop := ∀ i < pass.count, 4 * i + 4 ≤ pass.numBytes

/-- The loop over a pipe, where the number of integers in a piece is computed from its length. In its condition
the comparison with zero binds stronger than the exclusive or. -/
def pipePasses (numInts : Nat → Nat) (isTerminating : Nat → Bool) : Nat → (Nat → UInt8) → List (List UInt8) → List Pass
  | _, _, [] => []
  | iteration, buffer, chunk :: chunks =>
      if iteration ^^^ (if 511 ≠ 0 then 1 else 0) ≠ 0 ∨ !isTerminating iteration then
        ⟨overwrite chunk buffer, chunk.length, numInts chunk.length⟩ ::
          pipePasses numInts isTerminating (iteration + 1) (overwrite chunk buffer) chunks
      else []

namespace Input

def emptyBuffer (input : Input) : Nat → UInt8 := overwrite (List.replicate 4096 0) input.beyond

def mappedPasses (input : Input) : List Pass :=
  [⟨overwrite input.content input.beyond, input.content.length, input.content.length⟩]

def namedPipePasses (input : Input) : List Pass :=
  pipePasses (· / 4) input.isTerminating 0 input.emptyBuffer input.chunks

def xzPipePasses (input : Input) : List Pass :=
  pipePasses id input.isTerminating 0 input.emptyBuffer input.chunks

def passes (input : Input) : List Pass :=
  match source input.filename with
  | .mapped => input.mappedPasses
  | .namedPipe => input.namedPipePasses
  | .xzPipe => input.xzPipePasses

def processed (input : Input) : List CInt := input.passes.flatMap Pass.processed

def read (input : Input) : Reading := readInts input.processed ({ contentMode := .raw }, [])

/-- Every integer of the content is processed once, in order, and nothing else is read. -/
def Ingested (input : Input) : Prop :=
  input.processed = ints input.content ∧ ∀ pass ∈ input.passes, pass.Inside

/-- The named pipe delivers whole integers, all of them before the program terminates; the other two ways
only work without any content. -/
def Harmless (input : Input) : Prop :=
  match source input.filename with
  | .namedPipe => (∀ chunk ∈ input.chunks, 4 ∣ chunk.length) ∧
      (input.isTerminating 1 = false ∨ input.chunks.length ≤ 1)
  | .mapped | .xzPipe => input.content = []

end Input

theorem overwrite_of_lt {bytes : List UInt8} (memory : Nat → UInt8) {a : Nat} (h : a < bytes.length) :
    overwrite bytes memory a = bytes[a] := by
  simp [overwrite, h]

/-- The integers of the bytes do not depend on the memory around them. -/
theorem intAt_overwrite (bytes : List UInt8) (memory memory' : Nat → UInt8) {i : Nat} (h : 4 * i + 4 ≤ bytes.length) :
    intAt (overwrite bytes memory) i = intAt (overwrite bytes memory') i := by
  have hbyte : ∀ a < bytes.length, overwrite bytes memory a = overwrite bytes memory' a := by
    intro a ha
    rw [overwrite_of_lt memory ha, overwrite_of_lt memory' ha]
  rw [intAt, intAt, hbyte (4 * i) (by omega), hbyte (4 * i + 1) (by omega), hbyte (4 * i + 2) (by omega),
    hbyte (4 * i + 3) (by omega)]

theorem map_intAt_overwrite (bytes : List UInt8) (memory : Nat → UInt8) :
    (List.range (bytes.length / 4)).map (intAt (overwrite bytes memory)) = ints bytes := by
  apply List.map_congr_left
  intro i hi
  rw [List.mem_range] at hi
  apply intAt_overwrite
  omega

@[simp] theorem length_ints (content : List UInt8) : (ints content).length = content.length / 4 := by
  simp [ints]

@[simp] theorem ints_nil : ints [] = [] := rfl

theorem overwrite_append_left (bytes rest : List UInt8) (memory : Nat → UInt8) :
    overwrite (bytes ++ rest) memory = overwrite bytes (overwrite (bytes ++ rest) memory) := by
  funext a
  by_cases h : a < bytes.length
  · have hlt : a < (bytes ++ rest).length := by
      rw [List.length_append]
      omega
    rw [overwrite_of_lt memory hlt, overwrite_of_lt _ h, List.getElem_append_left h]
  · simp [overwrite, h]

theorem overwrite_append_right (bytes rest : List UInt8) (memory : Nat → UInt8) (a : Nat) :
    overwrite (bytes ++ rest) memory (bytes.length + a) = overwrite rest (fun a => memory (bytes.length + a)) a := by
  simp only [overwrite, List.getD_eq_getElem?_getD]
  rw [List.getElem?_append_right (by omega), Nat.add_sub_cancel_left]

theorem ints_append {bytes : List UInt8} (h : 4 ∣ bytes.length) (rest : List UInt8) :
    ints (bytes ++ rest) = ints bytes ++ ints rest := by
  obtain ⟨count, hcount⟩ := h
  have hlength : (bytes ++ rest).length / 4 = count + rest.length / 4 := by
    rw [List.length_append, hcount]
    omega
  have hfront : (List.range count).map (intAt (overwrite (bytes ++ rest) fun _ => 0)) = ints bytes := by
    have hdiv : count = bytes.length / 4 := by omega
    rw [overwrite_append_left, hdiv]
    exact map_intAt_overwrite bytes _
  have hback : (List.range (rest.length / 4)).map
      (intAt (overwrite (bytes ++ rest) fun _ => 0) ∘ (count + ·)) = ints rest := by
    apply List.map_congr_left
    intro i hi
    have hbyte : ∀ k, overwrite (bytes ++ rest) (fun _ => 0) (4 * (count + i) + k) =
        overwrite rest (fun _ => 0) (4 * i + k) := by
      intro k
      have haddress : 4 * (count + i) + k = bytes.length + (4 * i + k) := by omega
      rw [haddress]
      exact overwrite_append_right bytes rest _ _
    simp only [Function.comp_apply, intAt]
    rw [hbyte 1, hbyte 2, hbyte 3]
    exact congrArg (ofBytes 4 [·, _, _, _]) (hbyte 0)
  rw [ints, hlength, List.range_add, List.map_append, List.map_map, hfront, hback]

def PassOver (numInts : Nat → Nat) (pass : Pass) (chunk : List UInt8) : Prop :=
  pass.numBytes = chunk.length ∧ pass.count = numInts chunk.length ∧ ∃ memory, pass.memory = overwrite chunk memory

section Pipe

variable (numInts : Nat → Nat) (isTerminating : Nat → Bool)

/-- Only before the second piece does the loop look for a termination. -/
theorem goes_on_iff (iteration : Nat) : iteration ^^^ (if 511 ≠ 0 then 1 else 0) ≠ 0 ∨ !isTerminating iteration ↔
    iteration ≠ 1 ∨ isTerminating 1 = false := by
  have hxor : iteration ^^^ (if 511 ≠ 0 then 1 else 0) = 0 ↔ iteration = 1 := by
    simp
  rw [ne_eq, hxor]
  by_cases h : iteration = 1
  · simp [h]
  · simp [h]

theorem pipePasses_forall₂ (iteration : Nat) (buffer : Nat → UInt8) (chunks : List (List UInt8))
    (h : 1 < iteration ∨ isTerminating 1 = false) :
    List.Forall₂ (PassOver numInts) (pipePasses numInts isTerminating iteration buffer chunks) chunks := by
  induction chunks generalizing iteration buffer with
  | nil => exact .nil
  | cons chunk chunks ih =>
      have hcondition := (goes_on_iff isTerminating iteration).mpr (h.imp_left ne_of_gt)
      rw [pipePasses, if_pos hcondition]
      exact .cons ⟨rfl, rfl, buffer, rfl⟩ (ih _ _ (h.imp_left Nat.lt_succ_of_lt))

def delivered (chunks : List (List UInt8)) : List (List UInt8) := if isTerminating 1 then chunks.take 1 else chunks

theorem delivered_eq_iff (chunks : List (List UInt8)) : delivered isTerminating chunks = chunks ↔
    isTerminating 1 = false ∨ chunks.length ≤ 1 := by
  cases hterminating : isTerminating 1 with
  | false => simp [delivered, hterminating]
  | true => simp [delivered, hterminating, List.take_eq_self_iff]

theorem pipePasses_delivered (buffer : Nat → UInt8) (chunks : List (List UInt8)) :
    List.Forall₂ (PassOver numInts) (pipePasses numInts isTerminating 0 buffer chunks)
      (delivered isTerminating chunks) := by
  cases hterminating : isTerminating 1 with
  | false =>
      rw [delivered, hterminating]
      exact pipePasses_forall₂ numInts isTerminating 0 buffer chunks (Or.inr hterminating)
  | true =>
      rw [delivered, hterminating]
      cases chunks with
      | nil => exact .nil
      | cons chunk chunks =>
          have hfirst := (goes_on_iff isTerminating 0).mpr (Or.inl (by decide))
          have hstop : pipePasses numInts isTerminating 1 (overwrite chunk buffer) chunks = [] := by
            cases chunks with
            | nil => rfl
            | cons chunk' chunks =>
                have hcondition := mt (goes_on_iff isTerminating 1).mp (by simp [hterminating])
                rw [pipePasses, if_neg hcondition]
          rw [pipePasses, if_pos hfirst, hstop]
          exact .cons ⟨rfl, rfl, buffer, rfl⟩ .nil

end Pipe

theorem inside_iff_of_count_eq {pass : Pass} (h : pass.count = pass.numBytes) : pass.Inside ↔ pass.numBytes = 0 := by
  constructor
  · intro hinside
    by_contra hne
    have hlast := hinside (pass.count - 1) (by omega)
    omega
  · intro hzero i hi
    omega

theorem passOver_div_inside {pass : Pass} {chunk : List UInt8} (h : PassOver (· / 4) pass chunk) : pass.Inside := by
  obtain ⟨hbytes, hcount, -⟩ := h
  intro i hi
  rw [hcount] at hi
  rw [hbytes]
  have hdiv := Nat.div_mul_le_self chunk.length 4
  dsimp only at hi
  omega

theorem passOver_div_processed {pass : Pass} {chunk : List UInt8} (h : PassOver (· / 4) pass chunk) :
    pass.processed = ints chunk := by
  obtain ⟨hbytes, hcount, memory, hmemory⟩ := h
  rw [Pass.processed, hcount, hmemory]
  exact map_intAt_overwrite chunk memory

theorem processed_of_forall₂ {passes : List Pass} {chunks : List (List UInt8)}
    (h : List.Forall₂ (PassOver (· / 4)) passes chunks) :
    passes.flatMap Pass.processed = chunks.flatMap ints ∧ ∀ pass ∈ passes, pass.Inside := by
  induction h with
  | nil => exact ⟨rfl, by simp⟩
  | cons hpass hpasses ih =>
      rw [List.flatMap_cons, List.flatMap_cons, passOver_div_processed hpass, ih.1]
      exact ⟨rfl, List.forall_mem_cons.mpr ⟨passOver_div_inside hpass, ih.2⟩⟩

theorem flatMap_ints_of_dvd {chunks : List (List UInt8)} (h : ∀ chunk ∈ chunks, 4 ∣ chunk.length) :
    chunks.flatMap ints = ints chunks.flatten := by
  induction chunks with
  | nil => rfl
  | cons chunk chunks ih =>
      obtain ⟨hchunk, hchunks⟩ := List.forall_mem_cons.mp h
      rw [List.flatMap_cons, List.flatten_cons, ints_append hchunk, ih hchunks]

/-- Every piece that ends within an integer costs the number of its left over bytes. -/
theorem length_flatMap_ints (chunks : List (List UInt8)) :
    4 * (chunks.flatMap ints).length + (chunks.map (·.length % 4)).sum = chunks.flatten.length := by
  induction chunks with
  | nil => rfl
  | cons chunk chunks ih =>
      have hdiv := Nat.div_add_mod chunk.length 4
      simp only [List.flatMap_cons, List.length_append, length_ints, List.map_cons, List.sum_cons, List.flatten_cons]
      omega

namespace Input

variable (input : Input)

theorem chunks_eq_nil_iff : input.chunks = [] ↔ input.content = [] := by
  have hflatten := input.chunks_flatten
  constructor
  · intro h
    rw [← hflatten, h, List.flatten_nil]
  · intro h
    rw [h, List.flatten_eq_nil_iff] at hflatten
    apply List.eq_nil_iff_forall_not_mem.mpr
    intro chunk hchunk
    have hlength := (input.chunk_length chunk hchunk).1
    rw [hflatten chunk hchunk] at hlength
    exact absurd hlength (by decide)

theorem mapped_iff : (input.mappedPasses.flatMap Pass.processed = ints input.content ∧
    ∀ pass ∈ input.mappedPasses, pass.Inside) ↔ input.content = [] := by
  rw [mappedPasses, List.forall_mem_singleton, inside_iff_of_count_eq rfl, List.length_eq_zero_iff]
  refine and_iff_right_of_imp fun hempty => ?_
  simp [hempty, Pass.processed]

theorem xzPipe_iff : (input.xzPipePasses.flatMap Pass.processed = ints input.content ∧
    ∀ pass ∈ input.xzPipePasses, pass.Inside) ↔ input.content = [] := by
  have hpasses := pipePasses_delivered id input.isTerminating input.emptyBuffer input.chunks
  rw [← xzPipePasses] at hpasses
  rw [← chunks_eq_nil_iff]
  constructor
  · rintro ⟨-, hinside⟩
    cases hchunks : input.chunks with
    | nil => rfl
    | cons chunk chunks =>
        have hfirst : ∃ rest, delivered input.isTerminating input.chunks = chunk :: rest := by
          rw [delivered, hchunks]
          split
          · exact ⟨[], rfl⟩
          · exact ⟨chunks, rfl⟩
        obtain ⟨rest, hrest⟩ := hfirst
        rw [hrest] at hpasses
        obtain ⟨pass, passes, ⟨hbytes, hcount, -⟩, -, heq⟩ := List.forall₂_cons_right_iff.mp hpasses
        have hzero := (inside_iff_of_count_eq (hcount.trans hbytes.symm)).mp (hinside pass (by simp [heq]))
        have hlength := (input.chunk_length chunk (by simp [hchunks])).1
        omega
  · intro hchunks
    have hempty : input.content = [] := input.chunks_eq_nil_iff.mp hchunks
    simp [xzPipePasses, hchunks, hempty, pipePasses]

theorem all_delivered_of_count (hcontent : 4 ∣ input.chunks.flatten.length)
    (hcount : ((delivered input.isTerminating input.chunks).flatMap ints).length = input.chunks.flatten.length / 4) :
    input.isTerminating 1 = false ∨ input.chunks.length ≤ 1 := by
  by_contra hneither
  rw [not_or, Bool.not_eq_false, not_le] at hneither
  obtain ⟨hterminating, hlength⟩ := hneither
  cases hchunks : input.chunks with
  | nil => simp [hchunks] at hlength
  | cons chunk chunks =>
      have hne : chunks ≠ [] := by
        rintro rfl
        simp [hchunks] at hlength
      obtain ⟨chunk', hmem⟩ := List.exists_mem_of_ne_nil chunks hne
      have hpositive := (input.chunk_length chunk' (by simp [hchunks, hmem])).1
      have hle : chunk'.length ≤ chunks.flatten.length := by
        rw [List.length_flatten]
        exact List.le_sum_of_mem (List.mem_map_of_mem hmem)
      have hfirst : delivered input.isTerminating input.chunks = [chunk] := by
        simp [delivered, hterminating, hchunks]
      have htotal : input.chunks.flatten.length = chunk.length + chunks.flatten.length := by
        rw [hchunks, List.flatten_cons, List.length_append]
      rw [hfirst, List.flatMap_singleton, length_ints] at hcount
      omega

theorem namedPipe_iff (hcontent : 4 ∣ input.content.length) :
    (input.namedPipePasses.flatMap Pass.processed = ints input.content ∧
      ∀ pass ∈ input.namedPipePasses, pass.Inside) ↔
      (∀ chunk ∈ input.chunks, 4 ∣ chunk.length) ∧ (input.isTerminating 1 = false ∨ input.chunks.length ≤ 1) := by
  have hpasses := pipePasses_delivered (· / 4) input.isTerminating input.emptyBuffer input.chunks
  rw [← namedPipePasses] at hpasses
  obtain ⟨hprocessed, hinside⟩ := processed_of_forall₂ hpasses
  rw [and_iff_left hinside, hprocessed, ← input.chunks_flatten]
  rw [← input.chunks_flatten] at hcontent
  constructor
  · intro heq
    have hcount := congrArg List.length heq
    rw [length_ints] at hcount
    have hall := input.all_delivered_of_count hcontent hcount
    have hdelivered : delivered input.isTerminating input.chunks = input.chunks :=
      (delivered_eq_iff input.isTerminating input.chunks).mpr hall
    have hleft := length_flatMap_ints input.chunks
    rw [hdelivered] at hcount
    have hzero : (input.chunks.map (·.length % 4)).sum = 0 := by omega
    refine ⟨fun chunk hchunk => ?_, hall⟩
    apply Nat.dvd_of_mod_eq_zero
    exact List.sum_eq_zero_iff.mp hzero _ (List.mem_map_of_mem hchunk)
  · rintro ⟨hdvd, hall⟩
    rw [(delivered_eq_iff input.isTerminating input.chunks).mpr hall, flatMap_ints_of_dvd hdvd]

/-- The integers of a content are processed one by one, and nothing else is read, exactly if the content is
empty or comes through the named pipe in whole integers; then the description and the validity are those of
the integers, whatever the way. -/
theorem ingested_iff (hcontent : 4 ∣ input.content.length) : (input.Ingested ↔ input.Harmless) ∧
    (input.Harmless → input.read = readRaw (ints input.content)) := by
  have hiff : input.Ingested ↔ input.Harmless := by
    cases hsource : source input.filename with
    | mapped =>
        simp only [Ingested, Harmless, processed, passes, hsource]
        exact input.mapped_iff
    | namedPipe =>
        simp only [Ingested, Harmless, processed, passes, hsource]
        exact input.namedPipe_iff hcontent
    | xzPipe =>
        simp only [Ingested, Harmless, processed, passes, hsource]
        exact input.xzPipe_iff
  refine ⟨hiff, fun hharmless => ?_⟩
  rw [read, (hiff.mpr hharmless).1]
  rfl

def mappedZeros : Input where
  filename := "formula.cnf".toList
  content := List.replicate 8 0
  chunks := [List.replicate 8 0]
  chunks_flatten := rfl
  chunk_length := by decide
  beyond := fun _ => 1
  isTerminating := fun _ => false

def splitZeros : Input where
  filename := "formula.pipe".toList
  content := List.replicate 8 0
  chunks := [List.replicate 6 0, List.replicate 2 0]
  chunks_flatten := rfl
  chunk_length := by decide
  beyond := fun _ => 1
  isTerminating := fun _ => false

/-- Six more integers are read behind the content of the file, and the second number of the pipe is lost. -/
theorem not_always_ingested : (mappedZeros.processed.length = 8 ∧ ¬ mappedZeros.Ingested) ∧
    splitZeros.processed = [0] ∧ ¬ splitZeros.Ingested ∧
    ints splitZeros.content = ints mappedZeros.content ∧ (readRaw (ints splitZeros.content)).1.isValidInput = true ∧
    splitZeros.read.1.isValidInput = false := by
  have hmapped : mappedZeros.processed.length = 8 := by decide
  have hsplit : splitZeros.processed = [0] := by decide
  have hints : ints splitZeros.content = [0, 0] := by decide
  refine ⟨⟨hmapped, fun h => ?_⟩, hsplit, fun h => ?_, rfl, ?_, ?_⟩
  · have hlength := congrArg List.length h.1
    rw [hmapped, length_ints] at hlength
    exact absurd hlength (by decide)
  · have hequal := hsplit.symm.trans (h.1.trans hints)
    exact absurd hequal (by decide)
  · rw [hints]
    decide
  · rw [read, hsplit]
    decide

def wholeZeros : Input where
  filename := "formula.pipe".toList
  content := List.replicate 8 0
  chunks := [List.replicate 4 0, List.replicate 4 0]
  chunks_flatten := rfl
  chunk_length := by decide
  beyond := fun _ => 1
  isTerminating := fun _ => false

theorem ingested_iff_example : wholeZeros.Ingested ∧ wholeZeros.read = readRaw (ints wholeZeros.content) := by
  obtain ⟨hiff, hread⟩ := wholeZeros.ingested_iff (by decide)
  have hsource : source wholeZeros.filename = .namedPipe := by decide
  have hharmless : wholeZeros.Harmless := by
    rw [Harmless, hsource]
    exact ⟨by decide, Or.inl rfl⟩
  exact ⟨hiff.mpr hharmless, hread hharmless⟩

end Input

end Mallob.SatReader
