import Mallob.JobDescription

namespace Mallob.JobDescription

open ByteLayout

namespace Call

def value : Call → CInt
  | addLiteral lit => lit
  | addAssumption lit => lit

def asLiteral : Call → Option CInt
  | addLiteral lit => some lit
  | addAssumption _ => none

def asAssumption : Call → Option CInt
  | addLiteral _ => none
  | addAssumption lit => some lit

end Call

def literals (calls : List Call) : List CInt := calls.filterMap Call.asLiteral

def assumptions (calls : List Call) : List CInt := calls.filterMap Call.asAssumption

def values (calls : List Call) : List CInt := calls.map Call.value

theorem length_values (calls : List Call) :
    (values calls).length = (literals calls).length + (assumptions calls).length := by
  induction calls with
  | nil => rfl
  | cons call calls ih =>
      cases call with
      | addLiteral lit =>
          simp only [values, literals, assumptions, List.map_cons, List.filterMap_cons, Call.asLiteral, Call.asAssumption,
            List.length_cons] at ih ⊢
          omega
      | addAssumption lit =>
          simp only [values, literals, assumptions, List.map_cons, List.filterMap_cons, Call.asLiteral, Call.asAssumption,
            List.length_cons] at ih ⊢
          omega

section Data

variable {d d' : JobDescription} {r : Nat} {data : List UInt8}

theorem getRevisionData_setRevisionData (hr : r < d.dataPerRevision.length) (data : List UInt8) :
    (d.setRevisionData r data).getRevisionData r = .ok data := by
  simp only [getRevisionData, setRevisionData]
  rw [List.getElem?_set_self hr]

theorem lt_of_getRevisionData (h : d.getRevisionData r = .ok data) : r < d.dataPerRevision.length := by
  by_contra hr
  rw [getRevisionData, List.getElem?_eq_none (not_lt.mp hr)] at h
  cases h

theorem length_prepared (dataPerRevision : List (Option (List UInt8))) (r : Nat) :
    (prepared dataPerRevision r).length = max dataPerRevision.length (r + 1) := by
  rw [prepared, List.length_append, List.length_replicate]
  omega

theorem combineChecksum_frame (d : JobDescription) (x : Int) :
    (d.combineChecksum x).revision = d.revision ∧ (d.combineChecksum x).fSize = d.fSize ∧
      (d.combineChecksum x).aSize = d.aSize ∧ (d.combineChecksum x).appConfig = d.appConfig ∧
      (d.combineChecksum x).dataPerRevision = d.dataPerRevision ∧ (d.combineChecksum x).preloaded = d.preloaded := by
  rw [combineChecksum]
  split
  · exact ⟨rfl, rfl, rfl, rfl, rfl, rfl⟩
  · exact ⟨rfl, rfl, rfl, rfl, rfl, rfl⟩

end Data

structure Building (start : JobDescription) (revision : Nat) (calls : List Call) (d : JobDescription) : Prop where
  index : d.revision.toNat = revision
  data : d.getRevisionData revision = .ok (List.replicate start.getMetadataSize 0 ++ arrayBytes (values calls))
  size : start.getMetadataSize + 4 * (values calls).length ≤ maxSize
  fSize : d.fSize.toNat = (literals calls).length
  aSize : d.aSize.toNat = (assumptions calls).length
  config : d.appConfig = start.appConfig
  preloaded : d.preloaded = start.preloaded

section Building

variable {start d d' : JobDescription} {revision : Nat} {calls : List Call}

theorem building_begin {revision : Fin (2 ^ 31)} (h : start.beginInitialization revision = .ok d) :
    Building start revision [] d := by
  rw [beginInitialization] at h
  split at h
  · next hsize =>
      obtain rfl := Except.ok.inj h
      refine ⟨?_, ?_, ?_, rfl, rfl, rfl, rfl⟩
      · simp only [setRevisionData, BitVec.toNat_ofNat]
        exact Nat.mod_eq_of_lt (by omega)
      · rw [getRevisionData_setRevisionData (by rw [length_prepared]; omega), values, List.map_nil, arrayBytes_nil,
          List.append_nil]
      · simp only [values, List.map_nil, List.length_nil, maxSize]
        omega
  · cases h

theorem Building.pushInt (hb : Building start revision calls d) {lit : CInt} (h : d.pushInt lit = .ok d') :
    d' = d.setRevisionData revision
        (List.replicate start.getMetadataSize 0 ++ (arrayBytes (values calls) ++ bytes lit)) ∧
      start.getMetadataSize + 4 * ((values calls).length + 1) ≤ maxSize := by
  rw [JobDescription.pushInt, hb.index, hb.data] at h
  simp only [bind, Except.bind] at h
  split at h
  · next hsize =>
      rw [List.length_append, List.length_replicate, length_arrayBytes] at hsize
      rw [List.append_assoc] at h
      exact ⟨(Except.ok.inj h).symm, by omega⟩
  · cases h

theorem values_concat (calls : List Call) (call : Call) :
    arrayBytes (values (calls ++ [call])) = arrayBytes (values calls) ++ bytes call.value := by
  rw [values, List.map_append, arrayBytes_append]
  simp [values]

theorem toNat_succ {size : SizeT} {count : Nat} (hsize : size.toNat = count) (hcount : count + 1 < 2 ^ 63) :
    (size + 1).toNat = count + 1 := by
  have hone : (1 : SizeT).toNat = 1 := rfl
  rw [BitVec.toNat_add, hsize, hone]
  exact Nat.mod_eq_of_lt (by omega)

theorem Building.combineChecksum (hb : Building start revision calls d) (x : Int) :
    Building start revision calls (d.combineChecksum x) := by
  obtain ⟨hrevision, hf, ha, hconfig, hdata, hpreloaded⟩ := combineChecksum_frame d x
  refine ⟨?_, ?_, hb.size, ?_, ?_, ?_, ?_⟩
  · rw [hrevision]
    exact hb.index
  · rw [getRevisionData, hdata]
    exact hb.data
  · rw [hf]
    exact hb.fSize
  · rw [ha]
    exact hb.aSize
  · rw [hconfig]
    exact hb.config
  · rw [hpreloaded]
    exact hb.preloaded

/-- A pushed value is counted among the literals or among the assumptions. -/
theorem Building.counted (hb : Building start revision calls d) (call : Call) {fSize aSize : SizeT}
    (h : d.pushInt call.value = .ok d') (hf : fSize.toNat = (literals (calls ++ [call])).length)
    (ha : aSize.toNat = (assumptions (calls ++ [call])).length) :
    Building start revision (calls ++ [call]) { d' with fSize := fSize, aSize := aSize } := by
  obtain ⟨rfl, hsize⟩ := hb.pushInt h
  have hlength : (values (calls ++ [call])).length = (values calls).length + 1 := by
    rw [values, List.length_map, List.length_append, List.length_singleton, values, List.length_map]
  refine ⟨hb.index, ?_, ?_, hf, ha, hb.config, hb.preloaded⟩
  · rw [values_concat]
    exact getRevisionData_setRevisionData (lt_of_getRevisionData hb.data) _
  · rw [hlength]
    exact hsize

theorem Building.add (hb : Building start revision calls d) {call : Call} (h : d.add call = .ok d') :
    Building start revision (calls ++ [call]) d' := by
  have hcount := length_values calls
  cases call with
  | addLiteral lit =>
      cases hpush : d.pushInt lit with
      | error e =>
          rw [JobDescription.add, addLiteral, hpush] at h
          cases h
      | ok d₁ =>
          rw [JobDescription.add, addLiteral, hpush] at h
          obtain rfl := Except.ok.inj h
          obtain ⟨rfl, hsize⟩ := hb.pushInt hpush
          refine Building.combineChecksum (hb.counted (.addLiteral lit) hpush ?_ ?_) _
          · simp only [literals, List.filterMap_append, List.filterMap_cons, Call.asLiteral, List.filterMap_nil,
              List.length_append, List.length_singleton]
            exact toNat_succ hb.fSize (by simp only [maxSize, literals] at *; omega)
          · simp only [assumptions, List.filterMap_append, List.filterMap_cons, Call.asAssumption, List.filterMap_nil,
              List.append_nil]
            exact hb.aSize
  | addAssumption lit =>
      cases hpush : d.pushInt lit with
      | error e =>
          rw [JobDescription.add, addAssumption, hpush] at h
          cases h
      | ok d₁ =>
          rw [JobDescription.add, addAssumption, hpush] at h
          obtain rfl := Except.ok.inj h
          obtain ⟨rfl, hsize⟩ := hb.pushInt hpush
          refine Building.combineChecksum (hb.counted (.addAssumption lit) hpush ?_ ?_) _
          · simp only [literals, List.filterMap_append, List.filterMap_cons, Call.asLiteral, List.filterMap_nil,
              List.append_nil]
            exact hb.fSize
          · simp only [assumptions, List.filterMap_append, List.filterMap_cons, Call.asAssumption, List.filterMap_nil,
              List.length_append, List.length_singleton]
            exact toNat_succ hb.aSize (by simp only [maxSize, assumptions] at *; omega)

theorem Building.addAll (hb : Building start revision calls d) {more : List Call} (h : more.foldlM JobDescription.add d = .ok d') :
    Building start revision (calls ++ more) d' := by
  induction more generalizing calls d with
  | nil =>
      obtain rfl := Except.ok.inj h
      rw [List.append_nil]
      exact hb
  | cons call more ih =>
      rw [List.foldlM_cons] at h
      cases hadd : d.add call with
      | error e =>
          rw [hadd] at h
          cases h
      | ok d₁ =>
          rw [hadd] at h
          have hrest := ih (hb.add hadd) h
          rwa [List.append_assoc] at hrest

theorem length_header (x : Metadata) (config : List UInt8) : (header x config).length = 76 + config.length := by
  simp only [header, metadataBytes, List.length_append, length_bytes]

end Building

structure Complete (start : JobDescription) (revision : Nat) (calls : List Call) (d : JobDescription) : Prop where
  index : d.revision.toNat = revision
  data : d.getRevisionData revision =
    .ok (header d.toMetadata d.appConfig.serialize ++ arrayBytes (values (calls ++ start.preloaded)))
  fSize : d.fSize.toNat = (literals (calls ++ start.preloaded)).length
  aSize : d.aSize.toNat = (assumptions (calls ++ start.preloaded)).length
  config : d.appConfig = start.appConfig
  size : start.getMetadataSize < 2 ^ 31

theorem initialization_complete {start d : JobDescription} {revision : Fin (2 ^ 31)} {calls : List Call}
    (h : start.initialization revision calls = .ok d) : Complete start revision calls d := by
  rw [initialization] at h
  cases hbegin : start.beginInitialization revision with
  | error e =>
      rw [hbegin] at h
      cases h
  | ok d₁ =>
      have hsize : start.getMetadataSize < 2 ^ 31 := by
        rw [beginInitialization] at hbegin
        split at hbegin
        · next hsize => exact hsize
        · cases hbegin
      rw [hbegin] at h
      simp only [bind, Except.bind] at h
      cases hcalls : calls.foldlM add d₁ with
      | error e =>
          simp only [hcalls] at h
          cases h
      | ok d₂ =>
          have hb₂ := (building_begin hbegin).addAll hcalls
          simp only [hcalls, endInitialization, bind, Except.bind] at h
          cases hpreloaded : d₂.preloaded.foldlM add d₂ with
          | error e =>
              simp only [hpreloaded] at h
              cases h
          | ok d₃ =>
              have hb₃ := hb₂.addAll hpreloaded
              rw [List.nil_append, hb₂.preloaded] at hb₃
              have hconfig : d₃.appConfig = start.appConfig := hb₃.config
              have hlength : (header d₃.toMetadata d₃.appConfig.serialize).length = start.getMetadataSize := by
                rw [length_header, AppConfiguration.length_serialize, getMetadataSize, hconfig]
              have hdata : { d₃ with preloadedLiterals := [], preloadedAssumptions := [] }.getRevisionData
                  d₃.revision.toNat = .ok (List.replicate start.getMetadataSize 0 ++
                    arrayBytes (values (calls ++ start.preloaded))) := by
                rw [hb₃.index]
                exact hb₃.data
              simp only [hpreloaded, writeMetadata, hdata, bind, Except.bind] at h
              rw [if_pos (by rw [hlength, List.length_append, List.length_replicate]; exact Nat.le_add_right _ _)] at h
              obtain rfl := Except.ok.inj h
              have hdrop : (List.replicate start.getMetadataSize (0 : UInt8) ++
                  arrayBytes (values (calls ++ start.preloaded))).drop
                    (header d₃.toMetadata d₃.appConfig.serialize).length =
                  arrayBytes (values (calls ++ start.preloaded)) := by
                rw [hlength, List.drop_append_of_le_length (by simp), List.drop_of_length_le (by simp), List.nil_append]
              refine ⟨hb₃.index, ?_, hb₃.fSize, hb₃.aSize, hconfig, hsize⟩
              rw [hdrop, hb₃.index]
              exact getRevisionData_setRevisionData (lt_of_getRevisionData hb₃.data) _

theorem read_bind {n : Nat} {α : Type} (x : BitVec (8 * n)) (rest : List UInt8)
    (f : BitVec (8 * n) × List UInt8 → Option α) : (ByteLayout.read n (bytes x ++ rest) >>= f) = f (x, rest) := by
  rw [read_bytes]
  rfl

theorem readMetadata_bytes (x : Metadata) (rest : List UInt8) :
    readMetadata (metadataBytes x ++ rest) = some (x, rest) := by
  have hform : metadataBytes x ++ rest = bytes x.id ++ (bytes x.revision ++ (bytes x.clientRank ++ (bytes x.fSize ++
      (bytes x.aSize ++ (bytes x.rootRank ++ (bytes x.priority ++ (bytes x.numVars ++ (bytes x.wallclockLimit ++
        (bytes x.cpuLimit ++ (bytes x.maxDemand ++ (bytes x.application.code ++ (bytes x.checksumCount ++
          (bytes x.checksumVal ++ rest))))))))))))) := by
    simp only [metadataBytes, List.append_assoc]
  have hcode : ∀ {α : Type} (f : Application → Option α),
      (Application.ofCode x.application.code >>= f) = f x.application := by
    intro α f
    rw [Application.ofCode_code]
    rfl
  rw [hform, readMetadata]
  iterate 12 (rw [read_bind]; dsimp only)
  rw [hcode]
  iterate 2 (rw [read_bind]; dsimp only)
  rfl

theorem readHeader_header (x : Metadata) {config : List UInt8} (hconfig : config.length < 2 ^ 31)
    (payload : List UInt8) : readHeader (header x config ++ payload) = some (x, config) := by
  have hsize : (BitVec.ofNat (8 * 4) config.length).toNat = config.length := by
    rw [BitVec.toNat_ofNat]
    exact Nat.mod_eq_of_lt (by omega)
  simp only [readHeader, header, List.append_assoc, readMetadata_bytes, read_bytes, Option.bind_eq_bind,
    Option.bind_some, hsize]
  rw [if_pos (by rw [List.length_append]; omega), List.take_left]
  rfl

/-- The revision, the size of the formula and the size of the assumptions stand at fixed positions. -/
theorem header_fields (x : Metadata) (config payload : List UInt8) :
    read 4 ((header x config ++ payload).drop 4) = some (x.revision, (header x config ++ payload).drop 8) ∧
    read 8 ((header x config ++ payload).drop 12) = some (x.fSize, (header x config ++ payload).drop 20) ∧
    read 8 ((header x config ++ payload).drop 20) = some (x.aSize, (header x config ++ payload).drop 28) := by
  obtain ⟨rest, hform⟩ : ∃ rest, header x config ++ payload = bytes x.id ++ (bytes x.revision ++
      (bytes x.clientRank ++ (bytes x.fSize ++ (bytes x.aSize ++ rest)))) := by
    simp only [header, metadataBytes, List.append_assoc]
    exact ⟨_, rfl⟩
  have h4 : (header x config ++ payload).drop 4 = bytes x.revision ++ (bytes x.clientRank ++
      (bytes x.fSize ++ (bytes x.aSize ++ rest))) := by
    rw [hform]
    exact drop_bytes x.id _ 0
  have h8 : (header x config ++ payload).drop 8 = bytes x.clientRank ++ (bytes x.fSize ++ (bytes x.aSize ++ rest)) := by
    rw [hform]
    exact (drop_bytes x.id _ 4).trans (drop_bytes x.revision _ 0)
  have h12 : (header x config ++ payload).drop 12 = bytes x.fSize ++ (bytes x.aSize ++ rest) := by
    rw [hform]
    exact (drop_bytes x.id _ 8).trans ((drop_bytes x.revision _ 4).trans (drop_bytes x.clientRank _ 0))
  have h20 : (header x config ++ payload).drop 20 = bytes x.aSize ++ rest := by
    have hrest := drop_bytes x.fSize (bytes x.aSize ++ rest) 0
    rw [← h12, List.drop_drop] at hrest
    exact hrest
  have h28 : (header x config ++ payload).drop 28 = rest := by
    have hrest := drop_bytes x.aSize rest 0
    rw [← h20, List.drop_drop] at hrest
    exact hrest
  rw [h4, h8, h12, h20, h28]
  exact ⟨read_bytes _ _, read_bytes _ _, read_bytes _ _⟩

section Receiving

variable {d : JobDescription} {x : Metadata} {config payload : List UInt8} {r : Nat}

theorem readRevisionIndex_header (hrevision : x.revision.toNat < 2 ^ 31) :
    readRevisionIndex (header x config ++ payload) = .ok x.revision.toNat := by
  obtain ⟨hread, -, -⟩ := header_fields x config payload
  have hlength : 28 ≤ (header x config ++ payload).length := by
    rw [List.length_append, length_header]
    omega
  have hfield : (ofBytes 4 (((header x config ++ payload).drop 4).take 4) : CInt) = x.revision := by
    rw [ByteLayout.read] at hread
    split at hread
    · exact (Prod.mk.inj (Option.some.inj hread)).1
    · cases hread
  have hnonneg : 0 ≤ x.revision.toInt := by
    rw [BitVec.toInt_eq_toNat_of_lt (by omega)]
    exact Int.natCast_nonneg _
  rw [readRevisionIndex, if_pos hlength]
  simp only [hfield]
  rw [if_pos hnonneg]

/-- A received revision that is not older than the others decides on the metadata and the configuration. -/
theorem deserialize_header (hrevision : x.revision.toNat < 2 ^ 31) (hconfig : config.length < 2 ^ 31)
    (hlatest : d.dataPerRevision.length ≤ x.revision.toNat + 1) :
    d.deserialize (header x config ++ payload) =
      match AppConfiguration.deserialize config with
      | .ok appConfig => .ok { d with
          toMetadata := x
          appConfig := appConfig
          dataPerRevision := (prepared d.dataPerRevision x.revision.toNat).set x.revision.toNat
            (some (header x config ++ payload)) }
      | .error fault => .error (.configuration fault) := by
  have hlast : ((prepared d.dataPerRevision x.revision.toNat).set x.revision.toNat
      (some (header x config ++ payload))).getLast? = some (some (header x config ++ payload)) := by
    rw [List.getLast?_eq_getElem?, List.length_set, length_prepared, max_eq_right hlatest, Nat.add_sub_cancel,
      List.getElem?_set_self]
    rw [length_prepared]
    omega
  rw [deserialize, readRevisionIndex_header hrevision]
  cases happ : AppConfiguration.deserialize config with
  | ok appConfig =>
      simp only [bind, Except.bind, load, setRevisionData, hlast, readHeader_header x hconfig payload, happ]
  | error fault =>
      simp only [bind, Except.bind, load, setRevisionData, hlast, readHeader_header x hconfig payload, happ]

theorem getFormulaPayload_header (hdata : d.getRevisionData r = .ok (header x config ++ payload)) (lits : List CInt) :
    d.getFormulaPayloadSize r = .ok x.fSize.toNat ∧ d.getAssumptionsSize r = .ok x.aSize.toNat ∧
    (d.getFormulaPayload r = .ok lits ↔ lits.length = x.fSize.toNat ∧
      arrayBytes lits <+: (config ++ payload).drop d.appConfig.getSerializedSize) ∧
    (d.getAssumptionsPayload r = .ok lits ↔ lits.length = x.aSize.toNat ∧
      arrayBytes lits <+: (config ++ payload).drop (d.appConfig.getSerializedSize + 4 * x.fSize.toNat)) := by
  obtain ⟨-, hf, ha⟩ := header_fields x config payload
  have hfSize : d.getFormulaPayloadSize r = .ok x.fSize.toNat := by
    simp only [getFormulaPayloadSize, hdata, bind, Except.bind, hf]
    rfl
  have haSize : d.getAssumptionsSize r = .ok x.aSize.toNat := by
    simp only [getAssumptionsSize, hdata, bind, Except.bind, ha]
    rfl
  have hread : ∀ pos count, d.readPayload r (76 + pos) count = .ok lits ↔
      lits.length = count ∧ arrayBytes lits <+: (config ++ payload).drop pos := by
    intro pos count
    have hstarts : (metadataBytes x ++ bytes (BitVec.ofNat (8 * 4) config.length)).length = 76 := by
      simp only [metadataBytes, List.length_append, length_bytes]
    have hdrop : (header x config ++ payload).drop (76 + pos) = (config ++ payload).drop pos := by
      rw [header, List.append_assoc, ← hstarts, List.drop_append]
      simp
    rw [← hdrop, ← readArray_eq_some]
    simp only [readPayload, hdata, bind, Except.bind]
    cases readArray 4 count ((header x config ++ payload).drop (76 + pos)) with
    | none => simp
    | some xs => simp [pure, Except.pure]
  refine ⟨hfSize, haSize, ?_, ?_⟩
  · simp only [getFormulaPayload, hfSize, bind, Except.bind, getMetadataSize]
    exact hread _ _
  · simp only [getAssumptionsPayload, hfSize, haSize, bind, Except.bind, getMetadataSize, Nat.add_assoc]
    exact hread _ _

theorem payloads_header (hdata : d.getRevisionData r = .ok (header x config ++ payload)) {lits asms : List CInt}
    (hlits : x.fSize.toNat = lits.length) (hasms : x.aSize.toNat = asms.length) :
    (d.getFormulaPayload r = .ok lits ∧ d.getAssumptionsPayload r = .ok asms) ↔
      arrayBytes (lits ++ asms) <+: (config ++ payload).drop d.appConfig.getSerializedSize := by
  obtain ⟨-, -, hformula, -⟩ := getFormulaPayload_header hdata lits
  obtain ⟨-, -, -, hassumptions⟩ := getFormulaPayload_header hdata asms
  have hlength : (arrayBytes lits).length = 4 * lits.length := length_arrayBytes lits
  rw [hformula, hassumptions, hlits, hasms, ← List.drop_drop, arrayBytes_append, ← hlength]
  constructor
  · rintro ⟨⟨-, first⟩, ⟨-, second⟩⟩
    obtain ⟨rest, hrest⟩ := first
    rw [← hrest, List.drop_left] at second
    rw [← hrest]
    exact (List.prefix_append_right_inj _).mpr second
  · rintro ⟨rest, hrest⟩
    rw [← hrest, List.append_assoc, List.drop_left]
    exact ⟨⟨rfl, List.prefix_append _ _⟩, rfl, List.prefix_append _ _⟩

end Receiving

def Recovered (d received : JobDescription) (revision : Nat) (lits asms : List CInt) : Prop :=
  received.toMetadata = d.toMetadata ∧ received.appConfig = d.appConfig ∧
    received.getFormulaPayloadSize revision = .ok lits.length ∧ received.getFormulaPayload revision = .ok lits ∧
    received.getAssumptionsSize revision = .ok asms.length ∧ received.getAssumptionsPayload revision = .ok asms

/-- A serialization gives back the metadata, the literals and the assumptions exactly if no delimiter occurs
in the keys and values of the configuration and the literals came before the assumptions. -/
theorem serialization_separates_iff {start d : JobDescription} {revision : Fin (2 ^ 31)} {calls : List Call}
    (h : start.initialization revision calls = .ok d) :
    (∃ packed received, d.getRevisionData revision = .ok packed ∧ ({} : JobDescription).deserialize packed = .ok received ∧
      Recovered d received revision (literals (calls ++ start.preloaded)) (assumptions (calls ++ start.preloaded))) ↔
    start.appConfig.PlainOptions ∧
      values (calls ++ start.preloaded) =
        literals (calls ++ start.preloaded) ++ assumptions (calls ++ start.preloaded) := by
  have hc := initialization_complete h
  have hserialized : d.appConfig.serialize.length < 2 ^ 31 := by
    have hsize := hc.size
    rw [AppConfiguration.length_serialize, hc.config]
    simp only [getMetadataSize] at hsize
    omega
  have hdeserialize := @deserialize_header {} d.toMetadata d.appConfig.serialize
    (arrayBytes (values (calls ++ start.preloaded))) (by rw [hc.index]; exact revision.isLt) hserialized (by simp)
  have hdata : getRevisionData { ({} : JobDescription) with
      toMetadata := d.toMetadata
      appConfig := d.appConfig
      dataPerRevision := (prepared [] d.revision.toNat).set d.revision.toNat
        (some (header d.toMetadata d.appConfig.serialize ++ arrayBytes (values (calls ++ start.preloaded)))) }
      revision = .ok (header d.toMetadata d.appConfig.serialize ++
        arrayBytes (values (calls ++ start.preloaded))) := by
    rw [hc.index, getRevisionData, List.getElem?_set_self]
    rw [length_prepared]
    omega
  rw [← hc.config]
  constructor
  · rintro ⟨packed, received, hpacked, hreceived, -, hconfig, -, hformula, -, hassumptions⟩
    obtain rfl := Except.ok.inj (hc.data.symm.trans hpacked)
    rw [hdeserialize] at hreceived
    split at hreceived
    · next appConfig happ =>
        obtain rfl := Except.ok.inj hreceived
        obtain rfl : appConfig = d.appConfig := hconfig
        refine ⟨AppConfiguration.deserialize_plain happ, ?_⟩
        have hstarts := (payloads_header hdata hc.fSize hc.aSize).mp ⟨hformula, hassumptions⟩
        rw [← AppConfiguration.length_serialize, List.drop_left] at hstarts
        have hlength : (literals (calls ++ start.preloaded) ++ assumptions (calls ++ start.preloaded)).length =
            (values (calls ++ start.preloaded)).length := by
          rw [List.length_append, length_values]
        refine (arrayBytes_inj hlength (hstarts.eq_of_length ?_)).symm
        rw [length_arrayBytes, length_arrayBytes, hlength]
    · cases hreceived
  · rintro ⟨hplain, hvalues⟩
    rw [AppConfiguration.deserialize_serialize hplain] at hdeserialize
    obtain ⟨hformula, hassumptions⟩ := (payloads_header hdata hc.fSize hc.aSize).mpr (by
      rw [← AppConfiguration.length_serialize, List.drop_left, ← hvalues])
    obtain ⟨hfSize, haSize, -, -⟩ := getFormulaPayload_header hdata []
    refine ⟨_, _, hc.data, hdeserialize, rfl, rfl, ?_, hformula, ?_, hassumptions⟩
    · rw [hfSize]
      exact congrArg Except.ok hc.fSize
    · rw [haSize]
      exact congrArg Except.ok hc.aSize

def literalsFirst : JobDescription where
  appConfig := { map := (∅ : Std.ExtTreeMap (List UInt8) (List UInt8)).insert [97] [98, 99] }
  preloadedAssumptions := [4]

theorem serialization_separates_literals_first : ∃ d packed received,
    literalsFirst.initialization 1 [.addLiteral 3, .addLiteral 0, .addAssumption 5] = .ok d ∧
      d.getRevisionData 1 = .ok packed ∧ ({} : JobDescription).deserialize packed = .ok received ∧
      Recovered d received 1 [3, 0] [5, 4] := by
  have hok : (literalsFirst.initialization 1 [.addLiteral 3, .addLiteral 0, .addAssumption 5]).toOption.isSome = true := by
    decide +kernel
  cases hd : literalsFirst.initialization 1 [.addLiteral 3, .addLiteral 0, .addAssumption 5] with
  | error e =>
      rw [hd] at hok
      cases hok
  | ok d =>
      have hoptions : literalsFirst.appConfig.map.toList = [([97], [98, 99])] := by decide +kernel
      have hplain : literalsFirst.appConfig.PlainOptions := by
        intro option hmem
        rw [hoptions] at hmem
        obtain rfl := List.mem_singleton.mp hmem
        exact ⟨by decide, by decide, by decide⟩
      obtain ⟨packed, received, hrecovered⟩ := (serialization_separates_iff hd).mpr ⟨hplain, rfl⟩
      exact ⟨d, packed, received, rfl, hrecovered⟩

/-- The assumption of a line before the first clause ends up among the literals, and the end of the clause
among the assumptions. -/
theorem assumption_first_misplaced : ∃ d packed received,
    ({} : JobDescription).initialization 0 [.addAssumption 5, .addLiteral 3, .addLiteral 0] = .ok d ∧
      d.getRevisionData 0 = .ok packed ∧ ({} : JobDescription).deserialize packed = .ok received ∧
      received.getFormulaPayload 0 = .ok [5, 3] ∧ received.getAssumptionsPayload 0 = .ok [0] ∧
      ¬ Recovered d received 0 [3, 0] [5] := by
  refine ⟨_, _, _, rfl, rfl, rfl, ?_, ?_, fun hrecovered => ?_⟩
  · decide +kernel
  · decide +kernel
  · have hformula := hrecovered.2.2.2.1
    revert hformula
    decide +kernel

end Mallob.JobDescription
