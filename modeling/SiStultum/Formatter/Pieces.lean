import SiStultum.Formatter.ProtoPrint

/-!
# Complete formats

A complete format is a sequence of literal characters and complete directives, those that the
parser reads to their conversion character. `printedPieces` is its meaning: the output, the count
and the arguments used, without a buffer and without a format pointer. `proto_loop_pieces` says
that `__proto_print` computes this meaning.
-/

namespace SiStultum

open Signed

/-- A directive that the parser reads to its end, `ch` being its conversion character. -/
structure CompleteDirective where
  text : List Char8
  spec : Spec
  ch : Char8
  reads : readDirective text = .ok ⟨spec, ch, []⟩
  not_nul : ch ≠ 0

/-- The width of a directive that is read whole is an `int`. -/
theorem CompleteDirective.width_fits (d : CompleteDirective) :
    -1 ≤ d.spec.width ∧ d.spec.width < 2 ^ 31 :=
  read_directive_width d.reads

/-- A literal character or a complete directive. -/
inductive Piece where
  | literal (ch : Char8) (plain : ch ≠ 0 ∧ ch ≠ chr '%')
  | directive (d : CompleteDirective)

/-- The characters of a piece in the format. -/
def Piece.text : Piece → List Char8
  | .literal ch _ => [ch]
  | .directive d => chr '%' :: d.text

/-- The format of a sequence of pieces, without the NUL. -/
def formatOf (pieces : List Piece) : List Char8 :=
  pieces.flatMap Piece.text

/-- The number of arguments that a conversion takes. -/
def Conversion.argCount : Conversion → Nat
  | .signed | .unsigned _ _ | .char | .string | .pointer => 1
  | .float | .percent | .unknown => 0

/-- The number of arguments that a piece takes. -/
def Piece.argCount : Piece → Nat
  | .literal _ _ => 0
  | .directive d => (conversionOf d.ch).argCount

/-- The number of arguments that a format takes. -/
def argCount (pieces : List Piece) : Nat :=
  (pieces.map Piece.argCount).sum

/-- What `__print_int` prints if it can negate its number and the digits fit. -/
def intPrinted (n width precision : Int) (align : Bool) (prefixChar pad : Char8) :
    Except Fault Printed :=
  if n ≤ -2 ^ 63 then .error .overflow
  else if (intBody n precision).length < 32 then
    .ok (putInt (intBody n precision).reverse (intBody n precision).length width align
      (prefixOf n prefixChar) (padOf precision pad))
  else .error .outOfBounds

/-- What `__print_unsigned` prints if its digits fit. -/
def unsignedPrinted (n : Nat) (width precision : Int) (align : Bool) (pad : Char8)
    (base : DigitBase) (upper : Bool) : Except Fault Printed :=
  if (unsignedBody n precision base.val upper).length < 32 then
    .ok (putUnsigned (unsignedBody n precision base.val upper).reverse
      (unsignedBody n precision base.val upper).length width align (padOf precision pad))
  else .error .outOfBounds

/-- What a conversion prints of its argument. -/
def directivePrinted (spec : Spec) (conversion : Conversion) (arg : Arg) : Except Fault Printed :=
  match conversion with
  | .signed => intPrinted (signedArg spec.length arg.word) spec.width spec.precision spec.align
      spec.prefixChar spec.pad
  | .unsigned base upper => unsignedPrinted (unsignedArg spec.length arg.word) spec.width
      spec.precision spec.align spec.pad base upper
  | .char => .ok (printChar (arg.word.setWidth 8) spec.width spec.align)
  | .string => printStr arg.target spec.width spec.precision spec.align
  | .pointer => unsignedPrinted arg.word.toNat 16 (-1) false (chr '0') hexadecimal true
  | .percent => .ok (printChar (chr '%') spec.width spec.align)
  | .float | .unknown => .ok ⟨[], 0⟩

/-- The argument that the next directive reads, if it reads one. -/
def nextArg (args : List Arg) : Arg :=
  args.headD ⟨0, []⟩

/-- The state after a piece has been printed. -/
def PrintState.after (s : PrintState) (printed : Printed) (buff : StrBuff) (used : Nat) :
    PrintState :=
  ⟨s.out ++ printed.out, int32 (s.ret + printed.cnt), buff, s.args.drop used⟩

/-- The result of an integer printer is the meaning, with some buffer left behind. -/
def LeavesBuffer (result : Except Fault (StrBuff × Printed)) (meaning : Except Fault Printed) :
    Prop :=
  match meaning with
  | .error fault => result = .error fault
  | .ok printed => ∃ after, result = .ok (after, printed)

/-- A signed argument is a number of 64 bits. -/
theorem signed_arg_range (length : Length) (word : BitVec 64) :
    -2 ^ 63 ≤ signedArg length word ∧ signedArg length word < 2 ^ 63 := by
  cases length with
  | hh =>
      have hlow := BitVec.le_toInt (word.setWidth 8)
      have hhigh := BitVec.toInt_lt (x := word.setWidth 8)
      simp only [signedArg]
      omega
  | h =>
      have hlow := BitVec.le_toInt (word.setWidth 16)
      have hhigh := BitVec.toInt_lt (x := word.setWidth 16)
      simp only [signedArg]
      omega
  | none =>
      have hlow := BitVec.le_toInt (word.setWidth 32)
      have hhigh := BitVec.toInt_lt (x := word.setWidth 32)
      simp only [signedArg]
      omega
  | l | ll =>
      have hlow := BitVec.le_toInt word
      have hhigh := BitVec.toInt_lt (x := word)
      simp only [signedArg]
      omega

/-- A signed conversion computes its meaning. -/
theorem print_int_eq (buff : StrBuff) (n width precision : Int) (align : Bool)
    (prefixChar pad : Char8) :
    LeavesBuffer (printInt buff n width precision align prefixChar pad)
      (intPrinted n width precision align prefixChar pad) := by
  rw [intPrinted]
  by_cases hleast : n ≤ -2 ^ 63
  · rw [if_pos hleast]
    exact print_int_overflows hleast buff align prefixChar pad
  · rw [if_neg hleast]
    by_cases hroom : (intBody n precision).length < 32
    · rw [if_pos hroom]
      exact print_int_stored (not_le.mp hleast) buff hroom width align prefixChar pad
    · rw [if_neg hroom]
      exact print_int_overruns (not_le.mp hleast) buff (Nat.le_of_not_lt hroom) align prefixChar pad

/-- An unsigned conversion computes its meaning. -/
theorem print_unsigned_eq (buff : StrBuff) (n : Nat) (width precision : Int) (align : Bool)
    (pad : Char8) (base : DigitBase) (upper : Bool) :
    LeavesBuffer (printUnsigned buff n width precision align pad base.val upper)
      (unsignedPrinted n width precision align pad base upper) := by
  by_cases hroom : (unsignedBody n precision base.val upper).length < 32
  · rw [unsignedPrinted, if_pos hroom]
    exact print_unsigned_stored buff hroom width align pad
  · rw [unsignedPrinted, if_neg hroom]
    exact print_unsigned_overruns buff (Nat.le_of_not_lt hroom) align pad

/-- What a piece prints. -/
def Piece.printed (args : List Arg) : Piece → Except Fault Printed
  | .literal ch _ => .ok ⟨[ch], 1⟩
  | .directive d =>
      if (conversionOf d.ch).argCount ≤ args.length then
        directivePrinted d.spec (conversionOf d.ch) (nextArg args)
      else .error .noArgument

/-- What the pieces print one after the other. -/
def printedPieces : List Piece → List Arg → Except Fault Printed
  | [], _ => .ok ⟨[], 0⟩
  | piece :: pieces, args => do
      let first ← piece.printed args
      let rest ← printedPieces pieces (args.drop piece.argCount)
      pure ⟨first.out ++ rest.out, first.cnt + rest.cnt⟩

/-! ## The program computes the meaning -/

/-- A result of the program is the meaning, added to the state it started from. -/
def Computes (result : Except Fault PrintState) (meaning : Except Fault Printed) (s : PrintState)
    (used : Nat) : Prop :=
  match meaning with
  | .error fault => result = .error fault
  | .ok printed => ∃ buff, result = .ok (s.after printed buff used)

/-- The program faults as its meaning does. -/
theorem Computes.error_iff {result : Except Fault PrintState} {meaning : Except Fault Printed}
    {s : PrintState} {used : Nat} (h : Computes result meaning s used) (fault : Fault) :
    result = .error fault ↔ meaning = .error fault := by
  cases meaning with
  | error other =>
      have hresult : result = .error other := h
      rw [hresult, Except.error.injEq, Except.error.injEq]
  | ok printed =>
      obtain ⟨buff, hresult⟩ := h
      rw [hresult]
      simp

/-- The program ends as its meaning does. -/
theorem Computes.ok_iff {result : Except Fault PrintState} {meaning : Except Fault Printed}
    {s : PrintState} {used : Nat} (h : Computes result meaning s used) :
    (∃ after, result = .ok after) ↔ ∃ printed, meaning = .ok printed := by
  cases meaning with
  | error fault =>
      have hresult : result = .error fault := h
      simp [hresult]
  | ok printed =>
      obtain ⟨buff, hresult⟩ := h
      simp [hresult]

/-- `va_arg` when there is an argument. -/
theorem va_arg_eq {s : PrintState} (h : 1 ≤ s.args.length) :
    vaArg s = .ok (nextArg s.args, { s with args := s.args.drop 1 }) := by
  cases hargs : s.args with
  | nil => simp [hargs] at h
  | cons arg rest => simp [vaArg, hargs, nextArg]

/-- The conversions that write digits to `__str_buff`. -/
def Conversion.isNumber : Conversion → Bool
  | .signed | .unsigned _ _ | .pointer => true
  | .float | .char | .string | .percent | .unknown => false

/-- A directive that prints a number computes what its printer does. -/
theorem LeavesBuffer.computes {result : Except Fault (StrBuff × Printed)}
    {meaning : Except Fault Printed} (h : LeavesBuffer result meaning) (s : PrintState) :
    Computes (do
      let (buff, printed) ← result
      pure (PrintState.add { s with args := s.args.drop 1, buff := buff } printed))
      meaning s 1 := by
  cases meaning with
  | error fault =>
      have hresult : result = .error fault := h
      rw [hresult]
      rfl
  | ok printed =>
      obtain ⟨after, hresult⟩ := h
      rw [hresult]
      exact ⟨after, rfl⟩

/-- A numeric directive takes one argument and computes its meaning. -/
theorem print_number_computes (spec : Spec) {conversion : Conversion}
    (hnumber : conversion.isNumber = true) {s : PrintState} (h : 1 ≤ s.args.length) :
    Computes (printDirective spec conversion s)
      (directivePrinted spec conversion (nextArg s.args)) s 1 := by
  cases conversion with
  | float | char | string | percent | unknown => cases hnumber
  | signed =>
      rw [printDirective, va_arg_eq h, ok_bind]
      exact (print_int_eq s.buff (signedArg spec.length (nextArg s.args).word) spec.width
        spec.precision spec.align spec.prefixChar spec.pad).computes s
  | unsigned base upper =>
      rw [printDirective, va_arg_eq h, ok_bind]
      exact (print_unsigned_eq s.buff (unsignedArg spec.length (nextArg s.args).word) spec.width
        spec.precision spec.align spec.pad base upper).computes s
  | pointer =>
      rw [printDirective, va_arg_eq h, ok_bind]
      exact (print_unsigned_eq s.buff (nextArg s.args).word.toNat 16 (-1) false (chr '0')
        hexadecimal true).computes s

/-- A directive takes its arguments and computes its meaning. -/
theorem print_directive_computes {spec : Spec} {conversion : Conversion} {s : PrintState}
    (h : conversion.argCount ≤ s.args.length) (hret : int32 s.ret = s.ret) :
    Computes (printDirective spec conversion s)
      (directivePrinted spec conversion (nextArg s.args)) s conversion.argCount := by
  cases conversion with
  | signed | unsigned | pointer => exact print_number_computes spec rfl h
  | char =>
      rw [printDirective, va_arg_eq h, ok_bind]
      exact ⟨s.buff, rfl⟩
  | string =>
      rw [printDirective, va_arg_eq h, ok_bind, directivePrinted]
      cases hprint : printStr (nextArg s.args).target spec.width spec.precision spec.align with
      | error fault => simp only [hprint, Computes, error_bind]
      | ok printed =>
          simp only [hprint, Computes, ok_bind]
          exact ⟨s.buff, rfl⟩
  | percent => exact ⟨s.buff, rfl⟩
  | float | unknown =>
      refine ⟨s.buff, ?_⟩
      simp [printDirective, PrintState.after, Conversion.argCount, hret]

/-- A conversion without its argument. -/
theorem print_directive_no_argument (spec : Spec) {conversion : Conversion} {s : PrintState}
    (h : s.args.length < conversion.argCount) :
    printDirective spec conversion s = .error .noArgument := by
  have hva : vaArg s = .error .noArgument := by
    have hnil : s.args = [] := by
      cases conversion <;> simp only [Conversion.argCount] at h <;> simp at h <;> exact h
    rw [vaArg, hnil]
  cases conversion with
  | float | percent | unknown => exact absurd h (Nat.not_lt_zero _)
  | signed | unsigned | char | string | pointer => rw [printDirective, hva, error_bind]

/-- A part of the format between two others. -/
theorem read_directive_append (d : CompleteDirective) (more : List Char8) :
    readDirective (d.text ++ more) = .ok ⟨d.spec, d.ch, more⟩ := by
  obtain ⟨_, text, htext, hread⟩ := read_directive_reads d.reads
  rw [htext, List.append_nil]
  exact hread more

/-- States in sequence. -/
theorem PrintState.after_after (s : PrintState) (first second : Printed) (buff final : StrBuff)
    (used more : Nat) :
    (s.after first buff used).after second final more =
      s.after ⟨first.out ++ second.out, first.cnt + second.cnt⟩ final (used + more) := by
  simp only [PrintState.after, List.append_assoc, int32_int32_add, Int.add_assoc, List.drop_drop]

/-- The count stays an `int`. -/
theorem int32_after_ret (s : PrintState) (printed : Printed) (buff : StrBuff) (used : Nat) :
    int32 (s.after printed buff used).ret = (s.after printed buff used).ret := by
  have hwrap := int32_int32_add (s.ret + printed.cnt) 0
  rwa [Int.add_zero, Int.add_zero] at hwrap

/-- What one turn of the loop does with a piece. -/
def printPiece (s : PrintState) : Piece → Except Fault PrintState
  | .literal ch _ => .ok (s.add ⟨[ch], 1⟩)
  | .directive d => printDirective d.spec (conversionOf d.ch) s

/-- A piece of a format takes its arguments and computes its meaning. -/
theorem print_piece_computes (piece : Piece) {s : PrintState} (hret : int32 s.ret = s.ret) :
    Computes (printPiece s piece) (piece.printed s.args) s piece.argCount := by
  cases piece with
  | literal ch plain => exact ⟨s.buff, rfl⟩
  | directive d =>
      rw [Piece.printed]
      by_cases h : (conversionOf d.ch).argCount ≤ s.args.length
      · rw [if_pos h]
        exact print_directive_computes h hret
      · rw [if_neg h]
        exact print_directive_no_argument d.spec (Nat.lt_of_not_le h)

/-- One turn of the loop of `__proto_print`. -/
theorem proto_loop_piece (piece : Piece) (rest : List Char8) (s : PrintState) :
    protoLoop (piece.text ++ rest) s = printPiece s piece >>= protoLoop rest := by
  cases piece with
  | literal ch plain =>
      rw [Piece.text, List.singleton_append, protoLoop, if_neg plain.1, if_neg plain.2]
      rfl
  | directive d =>
      rw [Piece.text, List.cons_append, protoLoop, if_neg (by decide), if_pos rfl]
      split
      · next fault hread =>
        rw [read_directive_append] at hread
        cases hread
      · next r hread =>
        rw [read_directive_append] at hread
        cases hread
        rfl

/-- The text of a format begins with that of its first piece. -/
theorem format_of_cons (piece : Piece) (pieces : List Piece) (rest : List Char8) :
    formatOf (piece :: pieces) ++ rest = piece.text ++ (formatOf pieces ++ rest) := by
  simp [formatOf]

/-- `__proto_print` computes the meaning of a complete format, whatever follows the NUL. -/
theorem proto_loop_pieces (pieces : List Piece) (beyond : List Char8) {s : PrintState}
    (hret : int32 s.ret = s.ret) :
    Computes (protoLoop (formatOf pieces ++ 0 :: beyond) s) (printedPieces pieces s.args) s
      (argCount pieces) := by
  -- on the pieces: `Computes` holds of the rest from the state the first one leaves
  induction pieces generalizing s with
  | nil =>
      refine ⟨s.buff, ?_⟩
      rw [formatOf, List.flatMap_nil, List.nil_append, protoLoop, if_pos rfl]
      simp [PrintState.after, argCount, hret]
  | cons piece pieces ih =>
      have hcomputes := print_piece_computes piece hret
      rw [format_of_cons, proto_loop_piece, printedPieces]
      cases hprinted : piece.printed s.args with
      | error fault =>
          rw [hprinted] at hcomputes
          have hresult : printPiece s piece = .error fault := hcomputes
          rw [hresult]
          rfl
      | ok printed =>
          rw [hprinted] at hcomputes
          obtain ⟨buff, hstep⟩ := hcomputes
          have hrest := ih (int32_after_ret s printed buff piece.argCount)
          have hargs : (s.after printed buff piece.argCount).args = s.args.drop piece.argCount :=
            rfl
          rw [hargs] at hrest
          rw [hstep, ok_bind, ok_bind]
          cases hmeaning : printedPieces pieces (s.args.drop piece.argCount) with
          | error fault =>
              rw [hmeaning] at hrest
              exact hrest
          | ok more =>
              rw [hmeaning] at hrest
              obtain ⟨final, hfinal⟩ := hrest
              refine ⟨final, ?_⟩
              rw [hfinal, PrintState.after_after]
              rfl

/-- `__proto_print` on a complete format. -/
theorem proto_print_pieces (pieces : List Piece) (beyond : List Char8) (buff : StrBuff)
    (args : List Arg) :
    match printedPieces pieces args with
    | .error fault => protoPrint buff (formatOf pieces ++ 0 :: beyond) args = .error fault
    | .ok printed => ∃ after, protoPrint buff (formatOf pieces ++ 0 :: beyond) args =
        .ok ⟨printed.out, int32 printed.cnt, after, args.drop (argCount pieces)⟩ := by
  have hloop := proto_loop_pieces pieces beyond (s := ⟨[], 0, buff, args⟩) rfl
  rw [protoPrint]
  cases hmeaning : printedPieces pieces args with
  | error fault =>
      rw [hmeaning] at hloop
      exact hloop
  | ok printed =>
      rw [hmeaning] at hloop
      obtain ⟨after, hafter⟩ := hloop
      refine ⟨after, ?_⟩
      rw [hafter]
      simp only [PrintState.after, List.nil_append, Int.zero_add]

/-! ## Composition -/

/-- The text of two formats one after the other. -/
theorem format_of_append (pieces more : List Piece) :
    formatOf (pieces ++ more) = formatOf pieces ++ formatOf more :=
  List.flatMap_append

/-- Two formats one after the other take the arguments of both. -/
theorem arg_count_append (pieces more : List Piece) :
    argCount (pieces ++ more) = argCount pieces + argCount more := by
  rw [argCount, List.map_append, List.sum_append]
  rfl

/-- A piece does not look past its own arguments. -/
theorem printed_append (piece : Piece) {args : List Arg} (h : piece.argCount ≤ args.length)
    (more : List Arg) : piece.printed (args ++ more) = piece.printed args := by
  cases piece with
  | literal ch plain => rfl
  | directive d =>
      have hcount : (conversionOf d.ch).argCount ≤ args.length := h
      have hboth : (conversionOf d.ch).argCount ≤ (args ++ more).length := by
        rw [List.length_append]
        omega
      rw [Piece.printed, Piece.printed, if_pos hcount, if_pos hboth]
      cases args with
      | cons arg args => rfl
      | nil =>
          have hzero : (conversionOf d.ch).argCount = 0 := Nat.le_zero.mp hcount
          cases hconversion : conversionOf d.ch with
          | percent | float | unknown => rfl
          | signed | unsigned | char | string | pointer =>
              rw [hconversion] at hzero
              cases hzero

/-- The meaning of a concatenation, when the first part uses its own arguments up. -/
theorem printed_pieces_append (pieces more : List Piece) {args : List Arg}
    (h : args.length = argCount pieces) (rest : List Arg) :
    printedPieces (pieces ++ more) (args ++ rest) = (do
      let first ← printedPieces pieces args
      let second ← printedPieces more rest
      pure ⟨first.out ++ second.out, first.cnt + second.cnt⟩) := by
  induction pieces generalizing args with
  | nil =>
      obtain rfl : args = [] := List.length_eq_zero_iff.mp h
      simp only [List.nil_append, printedPieces, ok_bind, Int.zero_add]
      cases printedPieces more rest with
      | error fault => rfl
      | ok printed => rfl
  | cons piece pieces ih =>
      rw [argCount, List.map_cons, List.sum_cons] at h
      have hcount : piece.argCount ≤ args.length := by omega
      have hdrop : (args ++ rest).drop piece.argCount = args.drop piece.argCount ++ rest :=
        List.drop_append_of_le_length hcount
      -- the first piece takes its arguments, and the others are left exactly theirs
      have hlength : (args.drop piece.argCount).length = argCount pieces := by
        rw [List.length_drop, argCount]
        omega
      have hrest := ih hlength
      rw [List.cons_append, printedPieces, printedPieces, printed_append piece hcount, hdrop, hrest]
      cases piece.printed args with
      | error fault => rfl
      | ok printed =>
          cases printedPieces pieces (args.drop piece.argCount) with
          | error fault => rfl
          | ok first =>
              cases printedPieces more rest with
              | error fault => rfl
              | ok second =>
                  simp only [ok_bind, pure_ok, List.append_assoc, Int.add_assoc]

/-! ## Faults -/

/-- A string conversion can only read beyond its string. -/
theorem print_str_fault {s : List Char8} {width precision : Int} {align : Bool} {fault : Fault}
    (h : printStr s width precision align = .error fault) : fault = .outOfBounds := by
  by_cases hs : 0 ∈ s
  · obtain ⟨text, hstart, htext⟩ := exists_text_of_mem hs
    rw [print_str_stored hstart htext] at h
    cases h
  · rw [print_str_unterminated hs] at h
    cases h
    rfl

/-- A signed conversion leaves the buffer, or negates the least number. -/
theorem int_printed_fault {n width precision : Int} {align : Bool} {prefixChar pad : Char8}
    {fault : Fault} (h : intPrinted n width precision align prefixChar pad = .error fault) :
    fault = .outOfBounds ∨ fault = .overflow ∧ n ≤ -2 ^ 63 := by
  rw [intPrinted] at h
  split at h
  · next hleast =>
    cases h
    exact .inr ⟨rfl, hleast⟩
  · split at h <;> cases h
    exact .inl rfl

/-- An unsigned conversion can only leave the buffer. -/
theorem unsigned_printed_fault {n : Nat} {width precision : Int} {align : Bool} {pad : Char8}
    {base : DigitBase} {upper : Bool} {fault : Fault}
    (h : unsignedPrinted n width precision align pad base upper = .error fault) :
    fault = .outOfBounds := by
  rw [unsignedPrinted] at h
  split at h <;> cases h
  rfl

/-- A number or a string is out of bounds, or the least `long long` is negated. -/
theorem directive_printed_fault {spec : Spec} {conversion : Conversion} {arg : Arg} {fault : Fault}
    (h : directivePrinted spec conversion arg = .error fault) :
    fault = .outOfBounds ∨ fault = .overflow ∧ conversion = .signed ∧
      signedArg spec.length arg.word = -2 ^ 63 := by
  cases conversion with
  | signed =>
      refine (int_printed_fault h).imp_right fun hleast => ⟨hleast.1, rfl, ?_⟩
      exact Int.le_antisymm hleast.2 (signed_arg_range spec.length arg.word).1
  | unsigned base upper => exact .inl (unsigned_printed_fault h)
  | pointer => exact .inl (unsigned_printed_fault h)
  | string => exact .inl (print_str_fault h)
  | char | percent | float | unknown => cases h

/-- The least `long long` cannot be printed. -/
theorem directive_printed_least {spec : Spec} {arg : Arg}
    (hleast : signedArg spec.length arg.word = -2 ^ 63) :
    directivePrinted spec .signed arg = .error .overflow := by
  rw [directivePrinted, intPrinted, hleast, if_pos (Int.le_refl _)]

/-- The argument of a signed conversion can be negated: it is not the least `long long`. -/
def Piece.Negatable (args : List Arg) : Piece → Prop
  | .literal _ _ => True
  | .directive d =>
      conversionOf d.ch = .signed → signedArg d.spec.length (nextArg args).word ≠ -2 ^ 63

/-- No signed conversion of a format is given the least `long long`. -/
def Negatable : List Piece → List Arg → Prop
  | [], _ => True
  | piece :: pieces, args =>
      piece.Negatable args ∧ Negatable pieces (args.drop piece.argCount)

/-- A piece faults when its number or string is out of bounds, at the least `long long`, or for want
of an argument. -/
theorem printed_fault {piece : Piece} {args : List Arg} {fault : Fault}
    (h : piece.printed args = .error fault) :
    fault = .outOfBounds ∨ fault = .overflow ∧ ¬ piece.Negatable args ∨
      fault = .noArgument ∧ args.length < piece.argCount := by
  cases piece with
  | literal ch plain => cases h
  | directive d =>
      rw [Piece.printed] at h
      split at h
      · rcases directive_printed_fault h with hbounds | ⟨hoverflow, hsigned, hleast⟩
        · exact .inl hbounds
        · exact .inr (.inl ⟨hoverflow, fun hneg => hneg hsigned hleast⟩)
      · next hfew =>
        cases h
        exact .inr (.inr ⟨rfl, Nat.lt_of_not_le hfew⟩)

/-- What a piece prints was not the least `long long`. -/
theorem negatable_of_printed {piece : Piece} {args : List Arg} {printed : Printed}
    (h : piece.printed args = .ok printed) : piece.Negatable args := by
  cases piece with
  | literal ch plain => trivial
  | directive d =>
      intro hsigned hleast
      rw [Piece.printed] at h
      split at h
      · rw [hsigned, directive_printed_least hleast] at h
        cases h
      · cases h

/-- The faults of a format: the buffer or a string is left, the least number is negated, or an
argument is missing. -/
theorem printed_pieces_fault {pieces : List Piece} {args : List Arg} {fault : Fault}
    (h : printedPieces pieces args = .error fault) :
    fault = .outOfBounds ∨ fault = .overflow ∧ ¬ Negatable pieces args ∨
      fault = .noArgument ∧ args.length < argCount pieces := by
  induction pieces generalizing args with
  | nil => cases h
  | cons piece pieces ih =>
      have hcount : argCount (piece :: pieces) = piece.argCount + argCount pieces := rfl
      rw [printedPieces] at h
      cases hfirst : piece.printed args with
      | error first =>
          rw [hfirst] at h
          cases h
          rcases printed_fault hfirst with hbounds | ⟨hoverflow, hneg⟩ | ⟨hargument, hfew⟩
          · exact .inl hbounds
          · exact .inr (.inl ⟨hoverflow, fun hall => hneg hall.1⟩)
          · exact .inr (.inr ⟨hargument, by omega⟩)
      | ok first =>
          rw [hfirst, ok_bind] at h
          cases hrest : printedPieces pieces (args.drop piece.argCount) with
          | error rest =>
              rw [hrest] at h
              cases h
              rcases ih hrest with hbounds | ⟨hoverflow, hneg⟩ | ⟨hargument, hfew⟩
              · exact .inl hbounds
              · exact .inr (.inl ⟨hoverflow, fun hall => hneg hall.2⟩)
              · rw [List.length_drop] at hfew
                exact .inr (.inr ⟨hargument, by omega⟩)
          | ok rest =>
              rw [hrest] at h
              cases h

/-- What a format prints contains no least `long long`. -/
theorem negatable_of_ok {pieces : List Piece} {args : List Arg} {printed : Printed}
    (h : printedPieces pieces args = .ok printed) : Negatable pieces args := by
  induction pieces generalizing args printed with
  | nil => trivial
  | cons piece pieces ih =>
      rw [printedPieces] at h
      obtain ⟨first, hfirst, h⟩ := ok_of_bind h
      obtain ⟨rest, hrest, _⟩ := ok_of_bind h
      exact ⟨negatable_of_printed hfirst, ih hrest⟩

section

variable {pieces : List Piece} {args : List Arg} {buff : StrBuff}

/-- A complete format with all its arguments prints, overruns a buffer, or overflows at the least
`long long`. -/
theorem printed_pieces_cases (hargs : argCount pieces ≤ args.length)
    (hfit : protoPrint buff (formatOf pieces ++ [0]) args ≠ .error .outOfBounds) :
    (∃ printed, printedPieces pieces args = .ok printed) ∨
      printedPieces pieces args = .error .overflow ∧ ¬ Negatable pieces args := by
  have hprint := proto_print_pieces pieces [] buff args
  cases hmeaning : printedPieces pieces args with
  | ok printed => exact .inl ⟨printed, rfl⟩
  | error fault =>
      rw [hmeaning] at hprint
      rcases printed_pieces_fault hmeaning with rfl | ⟨rfl, hneg⟩ | ⟨_, hfew⟩
      · exact absurd hprint hfit
      · exact .inr ⟨rfl, hneg⟩
      · omega

/-- A format with its arguments that does not leave the buffer, and negates no least number, has a
meaning. -/
theorem printed_pieces_ok (hargs : argCount pieces ≤ args.length)
    (hfit : protoPrint buff (formatOf pieces ++ [0]) args ≠ .error .outOfBounds)
    (hneg : Negatable pieces args) : ∃ printed, printedPieces pieces args = .ok printed := by
  rcases printed_pieces_cases hargs hfit with hok | ⟨_, hleast⟩
  · exact hok
  · exact absurd hneg hleast

/-- A format that negates the least number, and does not leave the buffer, overflows. -/
theorem printed_pieces_overflow (hargs : argCount pieces ≤ args.length)
    (hfit : protoPrint buff (formatOf pieces ++ [0]) args ≠ .error .outOfBounds)
    (hneg : ¬ Negatable pieces args) : printedPieces pieces args = .error .overflow := by
  rcases printed_pieces_cases hargs hfit with ⟨printed, hok⟩ | ⟨hoverflow, _⟩
  · exact absurd (negatable_of_ok hok) hneg
  · exact hoverflow

end

/-- Arguments after those of a format have no influence. -/
theorem printed_pieces_extra (pieces : List Piece) {args : List Arg}
    (h : args.length = argCount pieces) (extra : List Arg) :
    printedPieces pieces (args ++ extra) = printedPieces pieces args := by
  have happend := printed_pieces_append pieces [] h extra
  rw [List.append_nil] at happend
  rw [happend]
  cases printedPieces pieces args with
  | error fault => rfl
  | ok printed => simp [printedPieces]

/-- A format with its arguments and more of them. -/
theorem proto_print_extra {pieces : List Piece} {args : List Arg}
    (h : args.length = argCount pieces) {printed : Printed}
    (hprinted : printedPieces pieces args = .ok printed) (buff : StrBuff) (extra : List Arg) :
    ∃ after, protoPrint buff (formatOf pieces ++ [0]) (args ++ extra) =
      .ok ⟨printed.out, int32 printed.cnt, after, extra⟩ := by
  have hprint := proto_print_pieces pieces [] buff (args ++ extra)
  rw [printed_pieces_extra pieces h, hprinted, ← h, List.drop_left] at hprint
  exact hprint

/-- Formatting is compositional and carries no state from one directive to the next. Two complete
formats that do not overrun a buffer each take exactly their own arguments, whatever follows those,
and print the same whatever the buffer holds; their concatenation prints the one after the other and
returns the sum. Where a signed conversion is given the least `long long`, the concatenation
overflows as the conversion does. -/
theorem proto_print_compositional (pieces more : List Piece) {a b : List Arg}
    (ha : a.length = argCount pieces) (hb : b.length = argCount more) {buff₁ buff₂ : StrBuff}
    (hfirst : protoPrint buff₁ (formatOf pieces ++ [0]) a ≠ .error .outOfBounds)
    (hsecond : protoPrint buff₂ (formatOf more ++ [0]) b ≠ .error .outOfBounds) :
    (Negatable pieces a ∧ Negatable more b →
      ∃ first second : Printed, ∀ (buff : StrBuff) (extra : List Arg),
        (∃ after, protoPrint buff (formatOf pieces ++ [0]) (a ++ extra) =
          .ok ⟨first.out, first.cnt, after, extra⟩) ∧
        (∃ after, protoPrint buff (formatOf more ++ [0]) (b ++ extra) =
          .ok ⟨second.out, second.cnt, after, extra⟩) ∧
        ∃ after, protoPrint buff (formatOf pieces ++ formatOf more ++ [0]) (a ++ b ++ extra) =
          .ok ⟨first.out ++ second.out, int32 (first.cnt + second.cnt), after, extra⟩) ∧
    (¬ (Negatable pieces a ∧ Negatable more b) →
      ∀ buff, protoPrint buff (formatOf pieces ++ formatOf more ++ [0]) (a ++ b) =
        .error .overflow) := by
  have hlength : (a ++ b).length = argCount (pieces ++ more) := by
    rw [List.length_append, arg_count_append, ha, hb]
  constructor
  · rintro ⟨hnega, hnegb⟩
    obtain ⟨first, hone⟩ := printed_pieces_ok (by omega) hfirst hnega
    obtain ⟨second, htwo⟩ := printed_pieces_ok (by omega) hsecond hnegb
    have hboth : printedPieces (pieces ++ more) (a ++ b) =
        .ok ⟨first.out ++ second.out, first.cnt + second.cnt⟩ := by
      rw [printed_pieces_append pieces more ha, hone, htwo]
      rfl
    refine ⟨⟨first.out, int32 first.cnt⟩, ⟨second.out, int32 second.cnt⟩, fun buff extra =>
      ⟨proto_print_extra ha hone buff extra, proto_print_extra hb htwo buff extra, ?_⟩⟩
    have hprint := proto_print_extra hlength hboth buff extra
    rw [format_of_append] at hprint
    simpa using hprint
  · intro hneg buff
    have hboth : printedPieces (pieces ++ more) (a ++ b) = .error .overflow := by
      rw [printed_pieces_append pieces more ha]
      by_cases hnega : Negatable pieces a
      · obtain ⟨first, hone⟩ := printed_pieces_ok (by omega) hfirst hnega
        have hnegb : ¬ Negatable more b := fun h => hneg ⟨hnega, h⟩
        rw [hone, ok_bind, printed_pieces_overflow (by omega) hsecond hnegb]
        rfl
      · rw [printed_pieces_overflow (by omega) hfirst hnega]
        rfl
    have hprint := proto_print_pieces (pieces ++ more) [] buff (a ++ b)
    rw [hboth, format_of_append] at hprint
    exact hprint

/-- A buffer of NULs. -/
def clearBuff : StrBuff :=
  Vector.replicate 32 0

/-- `d`, after the `%`. -/
def decimalDirective : CompleteDirective :=
  ⟨[chr 'd'], {}, chr 'd', by decide, by decide⟩

/-- `%`, after the `%`. -/
def percentDirective : CompleteDirective :=
  ⟨[chr '%'], {}, chr '%', by decide, by decide⟩

/-- `%d` followed by `x%%`. -/
theorem compositional_number_percent :
    ∃ first second : Printed, ∀ (buff : StrBuff) (extra : List Arg),
      (∃ after, protoPrint buff (formatOf [.directive decimalDirective] ++ [0])
          ([⟨42, []⟩] ++ extra) =
        .ok ⟨first.out, first.cnt, after, extra⟩) ∧
      (∃ after, protoPrint buff
          (formatOf [.literal (chr 'x') (by decide), .directive percentDirective] ++ [0])
          ([] ++ extra) =
        .ok ⟨second.out, second.cnt, after, extra⟩) ∧
      ∃ after, protoPrint buff (formatOf [.directive decimalDirective] ++
          formatOf [.literal (chr 'x') (by decide), .directive percentDirective] ++ [0])
          ([⟨42, []⟩] ++ [] ++ extra) =
        .ok ⟨first.out ++ second.out, int32 (first.cnt + second.cnt), after, extra⟩ :=
  (proto_print_compositional [.directive decimalDirective]
    [.literal (chr 'x') (by decide), .directive percentDirective] rfl rfl
    (show protoPrint clearBuff _ _ ≠ _ by decide +kernel)
    (show protoPrint clearBuff _ _ ≠ _ by decide +kernel)).1
    ⟨⟨fun _ => by decide, trivial⟩, ⟨trivial, fun _ => by decide, trivial⟩⟩

end SiStultum
