import Mallob.SatReader
import Mallob.PayloadSeparation

namespace Mallob.SatReader

open JobDescription (Call)

def digitsValue (value : Nat) : List (Fin 10) → Nat
  | [] => value
  | digit :: digits => digitsValue (value * 10 + digit) digits

structure Number where
  negative : Bool
  digits : List (Fin 10)
  value_pos : 0 < digitsValue 0 digits
  value_lt : digitsValue 0 digits < 2 ^ 31

namespace Number

def lit (n : Number) : Int := if n.negative then -(digitsValue 0 n.digits : Int) else digitsValue 0 n.digits

end Number

def digitChar (digit : Fin 10) : UInt8 := UInt8.ofNat (48 + digit)

def Number.text (n : Number) : List UInt8 := (if n.negative then [minus] else []) ++ n.digits.map digitChar

def spaces (count : Nat) : List UInt8 := List.replicate count space

def fieldsText (fields : List (Number × Nat)) : List UInt8 :=
  fields.flatMap fun field => field.1.text ++ spaces (field.2 + 1)

inductive Line
  | remark (isP : Bool) (rest : List UInt8) (single : newline ∉ rest)
  | clause (leading : Nat) (fields : List (Number × Nat)) (nonempty : fields ≠ []) (trailing : Nat)
  | assumptions (leading inner : Nat) (fields : List (Number × Nat)) (trailing : Nat)

namespace Line

def text : Line → List UInt8
  | remark isP rest _ => (if isP then letterP else letterC) :: rest
  | clause leading fields _ trailing => spaces leading ++ fieldsText fields ++ zero :: spaces trailing
  | assumptions leading inner fields trailing =>
      spaces leading ++ letterA :: (spaces inner ++ fieldsText fields ++ zero :: spaces trailing)

def clauses : Line → List (List Int)
  | clause _ fields _ _ => [fields.map fun field => field.1.lit]
  | _ => []

def assumptionLits : Line → List Int
  | assumptions _ _ fields _ => fields.map fun field => field.1.lit
  | _ => []

def mayPrecede (first second : Line) : Prop := first.assumptionLits = [] ∨ second.clauses = []

end Line

/-- The lines of a text, each with whether it ends in CRLF, and perhaps a last line that has no end. -/
structure Document where
  lines : List (Line × Bool)
  last : Option Line
  ordered : (lines.map Prod.fst ++ last.toList).Pairwise Line.mayPrecede

namespace Document

def allLines (doc : Document) : List Line := doc.lines.map Prod.fst ++ doc.last.toList

def lineEnd (crlf : Bool) : List UInt8 := if crlf then [carriageReturn, newline] else [newline]

def text (doc : Document) : List UInt8 :=
  (doc.lines.flatMap fun line => line.1.text ++ lineEnd line.2) ++ doc.last.toList.flatMap Line.text

def clauses (doc : Document) : List (List Int) := doc.allLines.flatMap Line.clauses

def assumptions (doc : Document) : List Int := doc.allLines.flatMap Line.assumptionLits

end Document

def literalCalls (clauses : List (List Int)) : List Call :=
  (clauses.flatMap fun clause => clause ++ [0]).map fun lit => .addLiteral (BitVec.ofInt (8 * 4) lit)

def assumptionCalls (lits : List Int) : List Call := lits.map fun lit => .addAssumption (BitVec.ofInt (8 * 4) lit)

def Line.calls (line : Line) : List Call := literalCalls line.clauses ++ assumptionCalls line.assumptionLits

structure Ready (assumption : Bool) (r : SatReader) : Prop where
  comment : r.comment = false
  beganNum : r.beganNum = false
  assumption_eq : r.assumption = assumption
  num : r.num = 0
  sign : r.sign = 1

def callOf (assumption : Bool) (lit : Int) : Call :=
  if assumption then .addAssumption (BitVec.ofInt (8 * 4) lit) else .addLiteral (BitVec.ofInt (8 * 4) lit)

section Characters

variable {r : SatReader} {assumption : Bool} {desc : List Call}

theorem feed_nil (reading : Reading) : feed reading [] = .ok reading := rfl

theorem feed_cons (r : SatReader) (c : UInt8) (cs : List UInt8) (desc : List Call) :
    feed (r, desc) (c :: cs) = (r.process c desc).bind fun reading => feed reading cs := List.foldlM_cons

theorem feed_append {reading reading' : Reading} {cs : List UInt8} (h : feed reading cs = .ok reading')
    (cs' : List UInt8) : feed reading (cs ++ cs') = feed reading' cs' := by
  rw [feed, List.foldlM_append]
  rw [feed] at h
  rw [h]
  rfl

theorem process_space (h : r.comment = false) : r.process space desc = r.endNumber desc := by
  rw [process, h]
  rfl

theorem process_lineEnd (h : r.comment = false) {c : UInt8} (hc : c = newline ∨ c = carriageReturn ∨ c = eof) :
    r.process c desc = r.endLine desc := by
  rw [process, h, Bool.false_and, if_neg Bool.false_ne_true, if_pos hc]

theorem Ready.spaces (h : Ready assumption r) (count : Nat) (desc : List Call) :
    ∃ r', feed (r, desc) (spaces count) = .ok (r', desc) ∧ Ready assumption r' := by
  induction count with
  | zero => exact ⟨r, rfl, h⟩
  | succ count ih =>
      obtain ⟨r', hfeed, hready⟩ := ih
      have hspaces : SatReader.spaces (count + 1) = SatReader.spaces count ++ [space] := List.replicate_succ'
      refine ⟨{ r' with sign := 1 }, ?_, ⟨hready.comment, hready.beganNum, hready.assumption_eq, hready.num, rfl⟩⟩
      rw [hspaces, feed_append hfeed, feed_cons, process_space hready.comment, endNumber,
        if_neg (by simp [hready.beganNum])]
      rfl

theorem isInt_iff {x : Int} : isInt x = true ↔ -2 ^ 31 ≤ x ∧ x < 2 ^ 31 := by simp [isInt]

theorem le_digitsValue (value : Nat) (digits : List (Fin 10)) : value ≤ digitsValue value digits := by
  induction digits generalizing value with
  | nil => exact le_rfl
  | cons digit digits ih =>
      have hle := ih (value * 10 + digit)
      rw [digitsValue]
      omega

theorem digitChar_spec (digit : Fin 10) :
    ¬ (digitChar digit = newline ∨ digitChar digit = carriageReturn ∨ digitChar digit = eof) ∧
    ¬ (digitChar digit = letterP ∨ digitChar digit = letterC) ∧ digitChar digit ≠ letterA ∧ digitChar digit ≠ space ∧
    digitChar digit ≠ minus ∧ charValue (digitChar digit) - charValue zero = (digit : Nat) := by
  revert digit
  decide

theorem feed_digits (hcomment : r.comment = false) (digits : List (Fin 10)) {value : Nat} (hnum : r.num = value)
    (hlt : digitsValue value digits < 2 ^ 31) (desc : List Call) :
    feed (r, desc) (digits.map digitChar) =
      .ok ({ r with num := digitsValue value digits, beganNum := r.beganNum || !digits.isEmpty }, desc) := by
  induction digits generalizing r value with
  | nil =>
      rw [List.map_nil, feed_nil, List.isEmpty_nil, Bool.not_true, Bool.or_false, digitsValue, ← hnum]
  | cons digit digits ih =>
      obtain ⟨hend, hremark, ha, hspace, hminus, hvalue⟩ := digitChar_spec digit
      have hle : value * 10 + digit ≤ digitsValue (value * 10 + digit) digits := le_digitsValue _ _
      have hlt' : digitsValue (value * 10 + digit) digits < 2 ^ 31 := hlt
      have hint : (isInt (r.num * 10) && isInt (r.num * 10 + (digit : Nat))) = true := by
        rw [hnum, Bool.and_eq_true, isInt_iff, isInt_iff]
        omega
      have hprocess : r.process (digitChar digit) desc =
          .ok ({ r with num := r.num * 10 + (digit : Nat), beganNum := true }, desc) := by
        rw [process, hcomment, Bool.false_and, if_neg Bool.false_ne_true, if_neg hend, if_neg hremark, if_neg ha,
          if_neg hspace, if_neg hminus, hvalue]
        simp only
        rw [if_pos hint]
      rw [List.map_cons, feed_cons, hprocess]
      have hnum' : r.num * 10 + (digit : Nat) = ((value * 10 + digit : Nat) : Int) := by
        rw [hnum]
        push_cast
        rfl
      refine (ih (r := { r with num := r.num * 10 + (digit : Nat), beganNum := true }) hcomment hnum' hlt').trans ?_
      simp [digitsValue]

theorem Number.digits_ne_nil (n : Number) : n.digits ≠ [] := by
  intro hnil
  have hpos := n.value_pos
  rw [hnil] at hpos
  cases hpos

theorem Number.isInt_lit (n : Number) : isInt n.lit = true := by
  have hlt := n.value_lt
  rw [isInt_iff, lit]
  split <;> omega

theorem Ready.number (h : Ready assumption r) (n : Number) (desc : List Call) :
    ∃ sign : Int, sign * (digitsValue 0 n.digits : Int) = n.lit ∧ feed (r, desc) n.text =
      .ok ({ r with sign := sign, num := digitsValue 0 n.digits, beganNum := true }, desc) := by
  have hdigits : n.digits.isEmpty = false := by simpa using n.digits_ne_nil
  rw [Number.text, Number.lit]
  cases n.negative with
  | true =>
      refine ⟨-1, by simp, ?_⟩
      have hprocess : r.process minus desc = .ok ({ r with sign := -1, beganNum := true }, desc) := by
        rw [process, h.comment]
        rfl
      rw [if_pos rfl, List.singleton_append, feed_cons, hprocess]
      refine (feed_digits (r := { r with sign := -1, beganNum := true }) h.comment n.digits h.num n.value_lt desc).trans ?_
      simp
  | false =>
      refine ⟨1, by simp, ?_⟩
      rw [if_neg Bool.false_ne_true, List.nil_append, feed_digits h.comment n.digits h.num n.value_lt, hdigits, h.sign,
        Bool.not_false, Bool.or_true]

theorem Ready.field (h : Ready assumption r) (field : Number × Nat) (desc : List Call) :
    ∃ r', feed (r, desc) (field.1.text ++ SatReader.spaces (field.2 + 1)) =
      .ok (r', desc ++ [callOf assumption field.1.lit]) ∧ Ready assumption r' := by
  obtain ⟨sign, hsign, hnumber⟩ := h.number field.1 desc
  have hspaces : SatReader.spaces (field.2 + 1) = space :: SatReader.spaces field.2 := rfl
  have hnum : (digitsValue 0 field.1.digits : Int) ≠ 0 := by
    have hpos := field.1.value_pos
    omega
  have hend : ({ r with sign := sign, num := digitsValue 0 field.1.digits, beganNum := true }).process space desc =
      .ok ({ r with
        sign := 1
        num := 0
        beganNum := false
        maxVar := max r.maxVar (digitsValue 0 field.1.digits) }, desc ++ [callOf assumption field.1.lit]) := by
    rw [process_space (r := { r with sign := sign, num := digitsValue 0 field.1.digits, beganNum := true }) h.comment,
      endNumber, if_pos rfl]
    simp only
    rw [hsign, if_pos field.1.isInt_lit, h.assumption_eq]
    cases assumption with
    | true =>
        rw [if_pos rfl, if_pos hnum]
        rfl
    | false => rfl
  have hready : Ready assumption { r with
      sign := 1
      num := 0
      beganNum := false
      maxVar := max r.maxVar (digitsValue 0 field.1.digits) } := ⟨h.comment, rfl, h.assumption_eq, rfl, rfl⟩
  obtain ⟨r', hfeed, hready'⟩ := hready.spaces field.2 (desc ++ [callOf assumption field.1.lit])
  refine ⟨r', ?_, hready'⟩
  rw [feed_append hnumber, hspaces, feed_cons, hend]
  exact hfeed

theorem Ready.fields (h : Ready assumption r) (fields : List (Number × Nat)) (desc : List Call) :
    ∃ r', feed (r, desc) (fieldsText fields) =
      .ok (r', desc ++ fields.map fun field => callOf assumption field.1.lit) ∧ Ready assumption r' := by
  induction fields generalizing r desc with
  | nil => exact ⟨r, congrArg Except.ok (congrArg _ (List.append_nil _).symm), h⟩
  | cons field fields ih =>
      obtain ⟨r₁, hfield, hready₁⟩ := h.field field desc
      obtain ⟨r₂, hrest, hready₂⟩ := ih hready₁ (desc ++ [callOf assumption field.1.lit])
      refine ⟨r₂, ?_, hready₂⟩
      rw [fieldsText, List.flatMap_cons, feed_append hfield]
      rw [fieldsText] at hrest
      rw [hrest, List.append_assoc]
      rfl

theorem Ready.close (h : Ready assumption r) (trailing : Nat) (desc : List Call) {c : UInt8}
    (hc : c = newline ∨ c = carriageReturn ∨ c = eof) :
    ∃ r', feed (r, desc) (zero :: SatReader.spaces trailing ++ [c]) =
      .ok (r', desc ++ if assumption then [] else [.addLiteral 0]) ∧ Ready false r' := by
  have hzero : r.process zero desc = .ok ({ r with beganNum := true }, desc) := by
    rw [process, h.comment, h.num]
    rfl
  rw [List.cons_append, feed_cons, hzero]
  simp only [Except.bind]
  cases trailing with
  | zero =>
      refine ⟨{ r with comment := false, beganNum := false, assumption := false }, ?_, rfl, rfl, rfl, h.num, h.sign⟩
      have hspaces : SatReader.spaces 0 ++ [c] = [c] := rfl
      rw [hspaces, feed_cons, process_lineEnd (r := { r with beganNum := true }) h.comment hc, endLine, if_pos rfl,
        if_pos h.num, h.assumption_eq]
      cases assumption with
      | true => simp [Except.bind, feed_nil]
      | false => simp [Except.bind, feed_nil]
  | succ trailing =>
      have hend : ({ r with beganNum := true }).process space desc =
          .ok ({ r with maxVar := max r.maxVar 0, beganNum := false },
            desc ++ if assumption then [] else [.addLiteral 0]) := by
        rw [process_space (r := { r with beganNum := true }) h.comment, endNumber, if_pos rfl]
        simp only [h.num, h.sign, mul_zero, h.assumption_eq]
        cases assumption with
        | true => simp [isInt]
        | false => simp [isInt]
      have hready : Ready assumption { r with maxVar := max r.maxVar 0, beganNum := false } :=
        ⟨h.comment, rfl, h.assumption_eq, h.num, h.sign⟩
      obtain ⟨r', hfeed, hready'⟩ := hready.spaces trailing (desc ++ if assumption then [] else [.addLiteral 0])
      have hspaces : SatReader.spaces (trailing + 1) ++ [c] = space :: (SatReader.spaces trailing ++ [c]) := rfl
      refine ⟨{ r' with comment := false, assumption := false }, ?_, rfl, hready'.beganNum, rfl, hready'.num, hready'.sign⟩
      rw [hspaces, feed_cons, hend]
      simp only [Except.bind]
      rw [feed_append hfeed, feed_cons, process_lineEnd hready'.comment hc, endLine,
        if_neg (by simp [hready'.beganNum])]
      rfl

theorem Ready.lineEnd (h : Ready false r) {c : UInt8} (hc : c = newline ∨ c = carriageReturn ∨ c = eof)
    (desc : List Call) : ∃ r', feed (r, desc) [c] = .ok (r', desc) ∧ Ready false r' := by
  refine ⟨{ r with comment := false, assumption := false }, ?_, rfl, h.beganNum, rfl, h.num, h.sign⟩
  rw [feed_cons, process_lineEnd h.comment hc, endLine, if_neg (by simp [h.beganNum])]
  rfl

theorem Ready.letterA (h : Ready false r) (desc : List Call) :
    ∃ r', feed (r, desc) [SatReader.letterA] = .ok (r', desc) ∧ Ready true r' := by
  refine ⟨{ r with assumption := true }, ?_, h.comment, h.beganNum, rfl, h.num, h.sign⟩
  rw [feed_cons, process, h.comment]
  rfl

theorem Ready.clause (h : Ready false r) (leading : Nat) (fields : List (Number × Nat)) (nonempty : fields ≠ [])
    (trailing : Nat) (desc : List Call) {c : UInt8} (hc : c = newline ∨ c = carriageReturn ∨ c = eof) :
    ∃ r', feed (r, desc) ((Line.clause leading fields nonempty trailing).text ++ [c]) =
      .ok (r', desc ++ (Line.clause leading fields nonempty trailing).calls) ∧ Ready false r' := by
  obtain ⟨r₁, hleading, h₁⟩ := h.spaces leading desc
  obtain ⟨r₂, hfields, h₂⟩ := h₁.fields fields desc
  obtain ⟨r₃, hclose, h₃⟩ := h₂.close trailing (desc ++ fields.map fun field => callOf false field.1.lit) hc
  refine ⟨r₃, ?_, h₃⟩
  rw [Line.text, List.append_assoc, List.append_assoc, feed_append hleading, feed_append hfields, hclose]
  simp [Line.calls, Line.clauses, Line.assumptionLits, literalCalls, assumptionCalls, callOf]

theorem Ready.assumptions (h : Ready false r) (leading inner : Nat) (fields : List (Number × Nat)) (trailing : Nat)
    (desc : List Call) {c : UInt8} (hc : c = newline ∨ c = carriageReturn ∨ c = eof) :
    ∃ r', feed (r, desc) ((Line.assumptions leading inner fields trailing).text ++ [c]) =
      .ok (r', desc ++ (Line.assumptions leading inner fields trailing).calls) ∧ Ready false r' := by
  obtain ⟨r₁, hleading, h₁⟩ := h.spaces leading desc
  obtain ⟨r₂, hletter, h₂⟩ := h₁.letterA desc
  obtain ⟨r₃, hinner, h₃⟩ := h₂.spaces inner desc
  obtain ⟨r₄, hfields, h₄⟩ := h₃.fields fields desc
  obtain ⟨r₅, hclose, h₅⟩ := h₄.close trailing (desc ++ fields.map fun field => callOf true field.1.lit) hc
  have htext : (Line.assumptions leading inner fields trailing).text ++ [c] = SatReader.spaces leading ++
      ([SatReader.letterA] ++ (SatReader.spaces inner ++ (fieldsText fields ++
        (zero :: SatReader.spaces trailing ++ [c])))) := by
    simp [Line.text]
  refine ⟨r₅, ?_, h₅⟩
  rw [htext, feed_append hleading, feed_append hletter, feed_append hinner, feed_append hfields, hclose]
  simp [Line.calls, Line.clauses, Line.assumptionLits, literalCalls, assumptionCalls, callOf]

theorem feed_comment (h : r.comment = true) (rest : List UInt8) (hrest : newline ∉ rest) (desc : List Call) :
    feed (r, desc) rest = .ok (r, desc) := by
  induction rest with
  | nil => rfl
  | cons c rest ih =>
      rw [List.mem_cons, not_or] at hrest
      have hc : (r.comment && c != newline) = true := by
        rw [h, Bool.true_and, bne_iff_ne]
        exact Ne.symm hrest.1
      rw [feed_cons, process, if_pos hc]
      exact ih hrest.2

theorem Ready.remark (h : Ready false r) (isP : Bool) (rest : List UInt8) (single : newline ∉ rest)
    (desc : List Call) : feed (r, desc) (Line.remark isP rest single).text = .ok ({ r with comment := true }, desc) := by
  have hprocess : r.process (if isP then letterP else letterC) desc = .ok ({ r with comment := true }, desc) := by
    rw [process, h.comment]
    cases isP <;> rfl
  rw [Line.text, feed_cons, hprocess]
  exact feed_comment (r := { r with comment := true }) rfl rest single desc

theorem Ready.line (h : Ready false r) (line : Line) (crlf : Bool) (desc : List Call) :
    ∃ r', feed (r, desc) (line.text ++ Document.lineEnd crlf) = .ok (r', desc ++ line.calls) ∧ Ready false r' := by
  have hended : ∀ {text : List UInt8} {calls : List Call}, (∀ {c : UInt8}, c = newline ∨ c = carriageReturn ∨ c = eof →
      ∃ r', feed (r, desc) (text ++ [c]) = .ok (r', desc ++ calls) ∧ Ready false r') →
      ∃ r', feed (r, desc) (text ++ Document.lineEnd crlf) = .ok (r', desc ++ calls) ∧ Ready false r' := by
    intro text calls hread
    cases crlf with
    | false => exact hread (Or.inl rfl)
    | true =>
        obtain ⟨r₁, hreturn, h₁⟩ := hread (Or.inr (Or.inl rfl))
        obtain ⟨r₂, hnewline, h₂⟩ := h₁.lineEnd (Or.inl rfl) (desc ++ calls)
        have htext : text ++ Document.lineEnd true = text ++ [carriageReturn] ++ [newline] := by
          rw [List.append_assoc]
          rfl
        exact ⟨r₂, by rw [htext, feed_append hreturn, hnewline], h₂⟩
  cases line with
  | remark isP rest single =>
      have hend : newline ∉ rest ++ (Document.lineEnd crlf).dropLast := by
        rw [List.mem_append, not_or]
        refine ⟨single, ?_⟩
        cases crlf <;> decide
      have htext : (Line.remark isP rest single).text ++ Document.lineEnd crlf =
          (Line.remark isP (rest ++ (Document.lineEnd crlf).dropLast) hend).text ++ [newline] := by
        cases crlf <;> simp [Document.lineEnd, Line.text]
      refine ⟨{ r with comment := false, assumption := false }, ?_, rfl, h.beganNum, rfl, h.num, h.sign⟩
      rw [htext, feed_append (h.remark isP _ hend desc), feed_cons]
      have hprocess : ({ r with comment := true }).process newline desc =
          .ok ({ r with comment := false, assumption := false }, desc) := by
        have hskip : ¬ (({ r with comment := true } : SatReader).comment && newline != newline) = true := by simp
        rw [process, if_neg hskip, if_pos (Or.inl rfl), endLine, if_neg (by simp [h.beganNum])]
      rw [hprocess]
      exact congrArg Except.ok (by rw [Line.calls]; simp [Line.clauses, Line.assumptionLits, literalCalls, assumptionCalls])
  | clause leading fields nonempty trailing => exact hended (h.clause leading fields nonempty trailing desc)
  | assumptions leading inner fields trailing => exact hended (h.assumptions leading inner fields trailing desc)

theorem Ready.lastLine (h : Ready false r) (line : Line) (desc : List Call) :
    ∃ r', feed (r, desc) (line.text ++ [eof]) = .ok (r', desc ++ line.calls) := by
  cases line with
  | remark isP rest single =>
      refine ⟨{ r with comment := true }, ?_⟩
      rw [feed_append (h.remark isP rest single desc), feed_comment (r := { r with comment := true }) rfl [eof] (by decide)]
      simp [Line.calls, Line.clauses, Line.assumptionLits, literalCalls, assumptionCalls]
  | clause leading fields nonempty trailing =>
      obtain ⟨r', hfeed, -⟩ := h.clause leading fields nonempty trailing desc (Or.inr (Or.inr rfl))
      exact ⟨r', hfeed⟩
  | assumptions leading inner fields trailing =>
      obtain ⟨r', hfeed, -⟩ := h.assumptions leading inner fields trailing desc (Or.inr (Or.inr rfl))
      exact ⟨r', hfeed⟩

theorem Ready.lines (h : Ready false r) (lines : List (Line × Bool)) (desc : List Call) :
    ∃ r', feed (r, desc) (lines.flatMap fun line => line.1.text ++ Document.lineEnd line.2) =
      .ok (r', desc ++ lines.flatMap fun line => line.1.calls) ∧ Ready false r' := by
  induction lines generalizing r desc with
  | nil => exact ⟨r, congrArg Except.ok (congrArg _ (List.append_nil _).symm), h⟩
  | cons line lines ih =>
      obtain ⟨r₁, hline, h₁⟩ := h.line line.1 line.2 desc
      obtain ⟨r₂, hlines, h₂⟩ := ih h₁ (desc ++ line.1.calls)
      refine ⟨r₂, ?_, h₂⟩
      rw [List.flatMap_cons, feed_append hline, hlines, List.flatMap_cons, List.append_assoc]

end Characters

namespace Document

theorem readAscii_text (doc : Document) : ∃ r, readAscii doc.text = .ok (r, doc.allLines.flatMap Line.calls) := by
  have hstart : Ready false { contentMode := .ascii } := ⟨rfl, rfl, rfl, rfl, rfl⟩
  obtain ⟨r₁, hlines, h₁⟩ := hstart.lines doc.lines []
  have hcalls : doc.allLines.flatMap Line.calls =
      (doc.lines.flatMap fun line => line.1.calls) ++ doc.last.toList.flatMap Line.calls := by
    rw [allLines, List.flatMap_append, List.flatMap_map]
  rw [List.nil_append] at hlines
  rw [readAscii, text, hcalls, List.append_assoc, feed_append hlines]
  cases doc.last with
  | none =>
      obtain ⟨r₂, hend, -⟩ := h₁.lineEnd (Or.inr (Or.inr rfl)) (doc.lines.flatMap fun line => line.1.calls)
      exact ⟨r₂, by simpa using hend⟩
  | some line =>
      obtain ⟨r₂, hend⟩ := h₁.lastLine line (doc.lines.flatMap fun line => line.1.calls)
      exact ⟨r₂, by simpa using hend⟩

theorem literalCalls_append (clauses clauses' : List (List Int)) :
    literalCalls (clauses ++ clauses') = literalCalls clauses ++ literalCalls clauses' := by
  rw [literalCalls, List.flatMap_append, List.map_append]
  rfl

theorem assumptionCalls_append (lits lits' : List Int) :
    assumptionCalls (lits ++ lits') = assumptionCalls lits ++ assumptionCalls lits' := List.map_append

theorem calls_of_ordered {lines : List Line} (h : lines.Pairwise Line.mayPrecede) :
    lines.flatMap Line.calls =
      literalCalls (lines.flatMap Line.clauses) ++ assumptionCalls (lines.flatMap Line.assumptionLits) := by
  induction lines with
  | nil => rfl
  | cons line lines ih =>
      obtain ⟨hline, hlines⟩ := List.pairwise_cons.mp h
      rw [List.flatMap_cons, List.flatMap_cons, List.flatMap_cons, ih hlines, Line.calls, literalCalls_append,
        assumptionCalls_append]
      by_cases hassumptions : line.assumptionLits = []
      · have hnone : assumptionCalls line.assumptionLits = [] := by
          rw [hassumptions]
          rfl
        rw [hnone, List.append_nil, List.nil_append, List.append_assoc]
      · have hclauses : lines.flatMap Line.clauses = [] := by
          rw [List.flatMap_eq_nil_iff]
          exact fun line' hline' => (hline line' hline').resolve_left hassumptions
        have hnone : literalCalls (lines.flatMap Line.clauses) = [] := by
          rw [hclauses]
          rfl
        rw [hnone, List.append_nil, List.nil_append, List.append_assoc]

theorem lit_bounds (n : Number) : -2 ^ 31 < n.lit ∧ n.lit < 2 ^ 31 := by
  have hlt := n.value_lt
  rw [Number.lit]
  split <;> omega

theorem clauses_bounds (doc : Document) : ∀ lit ∈ doc.clauses.flatMap (· ++ [0]), -2 ^ 31 < lit ∧ lit < 2 ^ 31 := by
  intro lit hlit
  obtain ⟨clause, hclause, hlit⟩ := List.mem_flatMap.mp hlit
  obtain ⟨line, -, hclause⟩ := List.mem_flatMap.mp hclause
  cases line with
  | remark isP rest single => cases hclause
  | clause leading fields nonempty trailing =>
      obtain rfl := List.mem_singleton.mp hclause
      rcases List.mem_append.mp hlit with hlit | hlit
      · obtain ⟨field, -, rfl⟩ := List.mem_map.mp hlit
        exact lit_bounds field.1
      · rw [List.mem_singleton.mp hlit]
        decide
  | assumptions leading inner fields trailing => cases hclause

theorem assumptions_bounds (doc : Document) : ∀ lit ∈ doc.assumptions, -2 ^ 31 < lit ∧ lit < 2 ^ 31 := by
  intro lit hlit
  obtain ⟨line, -, hlit⟩ := List.mem_flatMap.mp hlit
  cases line with
  | remark isP rest single => cases hlit
  | clause leading fields nonempty trailing => cases hlit
  | assumptions leading inner fields trailing =>
      obtain ⟨field, -, rfl⟩ := List.mem_map.mp hlit
      exact lit_bounds field.1

theorem map_toInt {lits : List Int} (h : ∀ lit ∈ lits, -2 ^ 31 < lit ∧ lit < 2 ^ 31) :
    (lits.map (BitVec.ofInt (8 * 4))).map BitVec.toInt = lits := by
  rw [List.map_map]
  refine (List.map_congr_left fun lit hlit => ?_).trans (List.map_id lits)
  obtain ⟨hlower, hupper⟩ := h lit hlit
  rw [Function.comp_apply, BitVec.toInt_ofInt, id]
  exact Int.bmod_eq_of_le (by omega) (by omega)

theorem separated (clauses : List (List Int)) (lits : List Int) :
    JobDescription.literals (literalCalls clauses ++ assumptionCalls lits) =
      (clauses.flatMap (· ++ [0])).map (BitVec.ofInt (8 * 4)) ∧
    JobDescription.assumptions (literalCalls clauses ++ assumptionCalls lits) = lits.map (BitVec.ofInt (8 * 4)) ∧
    JobDescription.values (literalCalls clauses ++ assumptionCalls lits) =
      (clauses.flatMap (· ++ [0])).map (BitVec.ofInt (8 * 4)) ++ lits.map (BitVec.ofInt (8 * 4)) := by
  refine ⟨?_, ?_, ?_⟩
  · simp [JobDescription.literals, literalCalls, assumptionCalls, List.filterMap_map, Function.comp_def, Call.asLiteral]
  · simp [JobDescription.assumptions, literalCalls, assumptionCalls, List.filterMap_map, Function.comp_def,
      Call.asAssumption]
  · simp [JobDescription.values, literalCalls, assumptionCalls, Function.comp_def, Call.value]

end Document

open JobDescription in
/-- The calls for a document make the payloads of a description to which nothing was preloaded. -/
theorem payloads_of_calls {start d : JobDescription} {revision : Fin (2 ^ 31)} {clauses : List (List Int)}
    {lits : List Int} (hpreloaded : start.preloaded = [])
    (h : start.initialization revision (literalCalls clauses ++ assumptionCalls lits) = .ok d) :
    d.getFormulaPayload revision = .ok ((clauses.flatMap (· ++ [0])).map (BitVec.ofInt (8 * 4))) ∧
      d.getAssumptionsPayload revision = .ok (lits.map (BitVec.ofInt (8 * 4))) := by
  obtain ⟨hliterals, hassumptions, hvalues⟩ := Document.separated clauses lits
  have hc := initialization_complete h
  have hdata := hc.data
  have hfSize := hc.fSize
  have haSize := hc.aSize
  rw [hpreloaded, List.append_nil] at hdata hfSize haSize
  rw [hliterals] at hfSize
  rw [hassumptions] at haSize
  refine (payloads_header hdata hfSize haSize).mpr ?_
  rw [hvalues, ← AppConfiguration.length_serialize, List.drop_left]

/-- However a formula is written, its literals and assumptions are read, and they become the payloads. -/
theorem textual_cnf_parsed (doc : Document) :
    ∃ r, readAscii doc.text = .ok (r, literalCalls doc.clauses ++ assumptionCalls doc.assumptions) ∧
      ∀ (start d : JobDescription) (revision : Fin (2 ^ 31)), start.preloaded = [] →
        start.initialization revision (literalCalls doc.clauses ++ assumptionCalls doc.assumptions) = .ok d →
        ∃ formula assumptions, d.getFormulaPayload revision = .ok formula ∧
          formula.map BitVec.toInt = doc.clauses.flatMap (· ++ [0]) ∧
          d.getAssumptionsPayload revision = .ok assumptions ∧ assumptions.map BitVec.toInt = doc.assumptions := by
  obtain ⟨r, hread⟩ := doc.readAscii_text
  have hcalls : doc.allLines.flatMap Line.calls = literalCalls doc.clauses ++ assumptionCalls doc.assumptions :=
    Document.calls_of_ordered doc.ordered
  rw [hcalls] at hread
  refine ⟨r, hread, fun start d revision hpreloaded hinit => ?_⟩
  obtain ⟨hformula, hassumptions⟩ := payloads_of_calls hpreloaded hinit
  exact ⟨_, _, hformula, Document.map_toInt doc.clauses_bounds, hassumptions, Document.map_toInt doc.assumptions_bounds⟩

def mixedLines : Document where
  lines := [(.remark false [104, 105] (by decide), true),
    (.clause 0 [(⟨false, [1], by decide, by decide⟩, 0), (⟨true, [2, 1], by decide, by decide⟩, 2)] (by simp) 1, true),
    (.remark true [] (by decide), false)]
  last := some (.assumptions 0 1 [(⟨true, [3], by decide, by decide⟩, 0)] 0)
  ordered := by
    refine List.pairwise_cons.mpr ⟨fun line _ => Or.inl rfl, List.pairwise_cons.mpr ⟨fun line _ => Or.inl rfl, ?_⟩⟩
    exact List.pairwise_cons.mpr ⟨fun line _ => Or.inl rfl, List.pairwise_singleton _ _⟩

theorem textual_cnf_parsed_mixed_lines : ∃ r d,
    readAscii mixedLines.text =
      .ok (r, [.addLiteral 1, .addLiteral (-21), .addLiteral 0, .addAssumption (-3)]) ∧
    ({} : JobDescription).initialization 0 [.addLiteral 1, .addLiteral (-21), .addLiteral 0, .addAssumption (-3)] = .ok d ∧
    ∃ formula assumptions, d.getFormulaPayload 0 = .ok formula ∧ formula.map BitVec.toInt = [1, -21, 0] ∧
      d.getAssumptionsPayload 0 = .ok assumptions ∧ assumptions.map BitVec.toInt = [-3] := by
  obtain ⟨r, hread, hpayloads⟩ := textual_cnf_parsed mixedLines
  exact ⟨r, _, hread, rfl, hpayloads {} _ 0 rfl rfl⟩

theorem digitsValue_concat (value : Nat) (digits : List (Fin 10)) (digit : Fin 10) :
    digitsValue value (digits ++ [digit]) = digitsValue value digits * 10 + digit := by
  induction digits generalizing value with
  | nil => rfl
  | cons first digits ih => exact ih _

theorem exists_digits (value : Nat) : ∃ digits : List (Fin 10), digitsValue 0 digits = value := by
  induction value using Nat.strong_induction_on with
  | _ value ih =>
      rcases Nat.eq_zero_or_pos value with rfl | hpos
      · exact ⟨[], rfl⟩
      · obtain ⟨digits, hdigits⟩ := ih (value / 10) (Nat.div_lt_self hpos (by decide))
        refine ⟨digits ++ [⟨value % 10, Nat.mod_lt _ (by decide)⟩], ?_⟩
        rw [digitsValue_concat, hdigits, Nat.mul_comm]
        exact Nat.div_add_mod value 10

def IsLiteral (lit : Int) : Prop := 1 ≤ lit.natAbs ∧ lit.natAbs < 2 ^ 31

theorem exists_number {lit : Int} (h : IsLiteral lit) : ∃ n : Number, n.lit = lit := by
  obtain ⟨digits, hdigits⟩ := exists_digits lit.natAbs
  obtain ⟨hpos, hlt⟩ := h
  rw [← hdigits] at hpos hlt
  rcases lt_or_ge lit 0 with hlit | hlit
  · refine ⟨⟨true, digits, hpos, hlt⟩, ?_⟩
    rw [Number.lit, if_pos rfl]
    simp only [hdigits]
    omega
  · refine ⟨⟨false, digits, hpos, hlt⟩, ?_⟩
    rw [Number.lit, if_neg Bool.false_ne_true]
    simp only [hdigits]
    omega

theorem exists_fields {lits : List Int} (h : ∀ lit ∈ lits, IsLiteral lit) :
    ∃ fields : List (Number × Nat), (fields.map fun field => field.1.lit) = lits := by
  induction lits with
  | nil => exact ⟨[], rfl⟩
  | cons lit lits ih =>
      obtain ⟨hlit, hlits⟩ := List.forall_mem_cons.mp h
      obtain ⟨n, rfl⟩ := exists_number hlit
      obtain ⟨fields, rfl⟩ := ih hlits
      exact ⟨(n, 0) :: fields, rfl⟩

theorem exists_lines {clauses : List (List Int)} (hne : ∀ clause ∈ clauses, clause ≠ [])
    (hlits : ∀ clause ∈ clauses, ∀ lit ∈ clause, IsLiteral lit) :
    ∃ lines : List Line, lines.flatMap Line.clauses = clauses ∧ ∀ line ∈ lines, line.assumptionLits = [] := by
  induction clauses with
  | nil => exact ⟨[], rfl, by simp⟩
  | cons clause clauses ih =>
      obtain ⟨hclause, hclauses⟩ := List.forall_mem_cons.mp hne
      obtain ⟨hclauseLits, hclausesLits⟩ := List.forall_mem_cons.mp hlits
      obtain ⟨fields, rfl⟩ := exists_fields hclauseLits
      obtain ⟨lines, rfl, hlines⟩ := ih hclauses hclausesLits
      exact ⟨.clause 0 fields (fun hnil => hclause (by rw [hnil]; rfl)) 0 :: lines, rfl,
        List.forall_mem_cons.mpr ⟨rfl, hlines⟩⟩

theorem exists_document {clauses : List (List Int)} {lits : List Int} (hne : ∀ clause ∈ clauses, clause ≠ [])
    (hclauses : ∀ clause ∈ clauses, ∀ lit ∈ clause, IsLiteral lit) (hlits : ∀ lit ∈ lits, IsLiteral lit) :
    ∃ doc : Document, doc.clauses = clauses ∧ doc.assumptions = lits := by
  obtain ⟨lines, rfl, hlines⟩ := exists_lines hne hclauses
  obtain ⟨fields, rfl⟩ := exists_fields hlits
  have hfst : (lines.map fun line => (line, false)).map Prod.fst = lines := by
    rw [List.map_map]
    exact List.map_id lines
  have hordered : ((lines.map fun line => (line, false)).map Prod.fst ++
      [Line.assumptions 0 1 fields 0]).Pairwise Line.mayPrecede := by
    rw [hfst, List.pairwise_append]
    exact ⟨List.pairwise_of_forall_mem_list fun first hfirst second _ => Or.inl (hlines first hfirst),
      List.pairwise_singleton _ _, fun first hfirst second _ => Or.inl (hlines first hfirst)⟩
  let doc : Document := ⟨lines.map fun line => (line, false), some (.assumptions 0 1 fields 0), hordered⟩
  have hall : doc.allLines = lines ++ [.assumptions 0 1 fields 0] := congrArg (· ++ _) hfst
  refine ⟨doc, ?_, ?_⟩
  · rw [Document.clauses, hall, List.flatMap_append]
    exact List.append_nil _
  · have hnone : lines.flatMap Line.assumptionLits = [] := List.flatMap_eq_nil_iff.mpr hlines
    rw [Document.assumptions, hall, List.flatMap_append, hnone]
    exact List.append_nil _

end Mallob.SatReader
