import SiStultum.Formatter.Grammar

/-!
# The end of the format

A complete format is read up to its NUL and no further. A format that ends inside a directive is
read past it (`format_reads_inside_iff`): the NUL is taken for the conversion character.
-/

namespace SiStultum

/-- A complete format, without its NUL: no directive of the grammar is cut off. -/
inductive Complete : List Char8 → Prop where
  | nil : Complete []
  | literal {ch : Char8} {format : List Char8} (plain : ch ≠ 0 ∧ ch ≠ chr '%')
      (rest : Complete format) : Complete (ch :: format)
  | directive (d : Directive) {format : List Char8} (rest : Complete format) :
      Complete (chr '%' :: (d.text ++ format))

/-- A call reads its format up to the NUL: nothing is missing when the memory ends there, and what
lies beyond has no influence. -/
def ReadsInside (buff : StrBuff) (format : List Char8) (args : List Arg) : Prop :=
  protoPrint buff (format ++ [0]) args ≠ .error .pastFormat ∧
    ∀ beyond, protoPrint buff (format ++ 0 :: beyond) args = protoPrint buff (format ++ [0]) args

/-- A call has the arguments it reads, and each of them fits: no `va_arg` without an argument, no
string without a NUL, no number too long for the buffer or for an `int`. -/
def Sufficient (buff : StrBuff) (format : List Char8) (args : List Arg) : Prop :=
  protoPrint buff (format ++ [0]) args ≠ .error .noArgument ∧
    protoPrint buff (format ++ [0]) args ≠ .error .outOfBounds ∧
    protoPrint buff (format ++ [0]) args ≠ .error .overflow

/-! ## Complete formats -/

/-- The printers do not read the format. -/
theorem print_directive_inside (spec : Spec) (conversion : Conversion) (s : PrintState) :
    printDirective spec conversion s ≠ .error .pastFormat := by
  by_cases hargs : conversion.argCount ≤ s.args.length
  · cases conversion with
    | signed | unsigned | pointer =>
        rw [Ne, (print_number_computes spec rfl hargs).error_iff]
        intro h
        rcases directive_printed_fault h with hfault | ⟨hfault, _⟩ <;> cases hfault
    | string =>
        rw [printDirective, va_arg_eq hargs, ok_bind]
        cases hprint : printStr (nextArg s.args).target spec.width spec.precision spec.align with
        | error fault =>
            obtain rfl := print_str_fault hprint
            simp only [hprint, error_bind]
            simp
        | ok printed =>
            simp only [hprint, ok_bind]
            intro hpast
            cases hpast
    | char =>
        rw [printDirective, va_arg_eq hargs, ok_bind]
        intro hpast
        cases hpast
    | percent | float | unknown =>
        intro hpast
        cases hpast
  · rw [print_directive_no_argument spec (Nat.lt_of_not_le hargs)]
    simp

/-- The loop on a complete format stops at the NUL. -/
theorem proto_loop_complete {format : List Char8} (h : Complete format) (s : PrintState) :
    protoLoop (format ++ [0]) s ≠ .error .pastFormat ∧
      ∀ beyond, protoLoop (format ++ 0 :: beyond) s = protoLoop (format ++ [0]) s := by
  induction h generalizing s with
  | nil =>
      refine ⟨?_, fun beyond => ?_⟩
      · rw [List.nil_append, protoLoop, if_pos rfl]
        simp
      · rw [List.nil_append, List.nil_append, protoLoop, if_pos rfl, protoLoop, if_pos rfl]
  | @literal ch format plain rest ih =>
      have hloop (more : List Char8) := proto_loop_piece (.literal ch plain) more s
      simp only [Piece.text, List.singleton_append, printPiece, ok_bind] at hloop
      simp only [List.cons_append, hloop]
      exact ih (s.add ⟨[ch], 1⟩)
  | @directive d format rest ih =>
      simp only [List.cons_append, List.append_assoc]
      by_cases hfits : d.NumbersFit
      · have hloop (more : List Char8) := proto_loop_piece (.directive (d.complete hfits)) more s
        have htext : Piece.text (.directive (d.complete hfits)) = chr '%' :: d.text := rfl
        simp only [htext, List.cons_append] at hloop
        simp only [hloop]
        cases hprint : printPiece s (.directive (d.complete hfits)) with
        | error fault =>
            have hinside := print_directive_inside d.spec (conversionOf d.conv) s
            refine ⟨fun hpast => hinside ?_, fun beyond => rfl⟩
            exact hprint.trans hpast
        | ok after => exact ih after
      · simp only [proto_loop_wide d hfits]
        exact ⟨by simp, fun _ => trivial⟩

/-! ## Formats that are cut off -/

/-- A directive that was read from a format either is one of the grammar before the NUL, or takes
the NUL for its conversion character and leaves nothing. -/
theorem read_directive_complete {rest : List Char8} (hrest : 0 ∉ rest) {r : Reader}
    (h : readDirective (rest ++ [0]) = .ok r) :
    r.format = [] ∨ ∃ (d : Directive) (tail : List Char8),
      rest = d.text ++ tail ∧ r.format = tail ++ [0] := by
  have hsuffix := (read_directive_reads h).1
  rcases List.eq_nil_or_concat r.format with hnil | ⟨tail, last, hconcat⟩
  · exact .inl hnil
  · right
    rw [List.concat_eq_append] at hconcat
    have hch : r.ch ≠ 0 := by
      obtain ⟨init, hinit⟩ := hsuffix
      rw [hconcat, ← List.cons_append, ← List.append_assoc] at hinit
      have hmem : r.ch ∈ rest := by
        rw [← (List.append_inj' hinit rfl).1]
        simp
      exact fun hzero => hrest (hzero ▸ hmem)
    obtain ⟨d, -, htext, -⟩ := read_directive_sound h hch
    rw [hconcat, ← List.append_assoc] at htext
    obtain ⟨hbody, hlast⟩ := List.append_inj' htext rfl
    exact ⟨d, tail, hbody, by rw [hconcat, List.singleton_inj.mp hlast]⟩

/-- A call that ends has read a complete format. -/
theorem complete_of_ok {format : List Char8} (hformat : 0 ∉ format) {s after : PrintState}
    (h : protoLoop (format ++ [0]) s = .ok after) : Complete format := by
  -- on the length: a directive leaves a shorter format to the next turn of the loop
  induction hlength : format.length using Nat.strong_induction_on generalizing format s with
  | _ size ih =>
      cases format with
      | nil => exact .nil
      | cons ch rest =>
          rw [List.mem_cons, not_or] at hformat
          rw [List.cons_append, protoLoop, if_neg (Ne.symm hformat.1)] at h
          by_cases hpercent : ch = chr '%'
          · rw [if_pos hpercent] at h
            split at h
            · cases h
            · next r hread =>
              obtain ⟨middle, hprint, hloop⟩ := ok_of_bind h
              rcases read_directive_complete hformat.2 hread with
                hnil | ⟨d, tail, rfl, htail⟩
              · rw [hnil, protoLoop] at hloop
                cases hloop
              · rw [htail] at hloop
                have hnul : 0 ∉ tail := fun hmem => hformat.2 (List.mem_append_right _ hmem)
                have hshort : tail.length < size := by
                  rw [← hlength, List.length_cons, List.length_append]
                  omega
                rw [hpercent]
                exact .directive d (ih tail.length hshort hnul hloop rfl)
          · rw [if_neg hpercent] at h
            have hshort : rest.length < size := by
              rw [← hlength]
              exact Nat.lt_succ_self _
            exact .literal ⟨Ne.symm hformat.1, hpercent⟩
              (ih rest.length hshort hformat.2 h rfl)

/-- A complete format is read up to its NUL, whatever the arguments. With sufficient arguments no
other format is. -/
theorem format_reads_inside_iff {format : List Char8} (hformat : 0 ∉ format) (buff : StrBuff)
    (args : List Arg) :
    (Complete format → ReadsInside buff format args) ∧
      (Sufficient buff format args → ReadsInside buff format args → Complete format) := by
  refine ⟨fun hcomplete => proto_loop_complete hcomplete ⟨[], 0, buff, args⟩, ?_⟩
  intro ⟨hargument, hbounds, hoverflow⟩ ⟨hpast, _⟩
  cases hprint : protoPrint buff (format ++ [0]) args with
  | ok after => exact complete_of_ok hformat hprint
  | error fault =>
      cases fault with
      | pastFormat => exact absurd hprint hpast
      | noArgument => exact absurd hprint hargument
      | outOfBounds => exact absurd hprint hbounds
      | overflow => exact absurd hprint hoverflow

/-- The format `%d` is read inside, and the reading shows that it is complete. -/
theorem decimal_read_inside :
    ReadsInside clearBuff [chr '%', chr 'd'] [⟨42, []⟩] ∧
      Sufficient clearBuff [chr '%', chr 'd'] [⟨42, []⟩] ∧ Complete [chr '%', chr 'd'] := by
  have hreads := format_reads_inside_iff (show 0 ∉ [chr '%', chr 'd'] by decide) clearBuff
    [⟨42, []⟩]
  have hinside := hreads.1
    (.directive ⟨[], [], none, .none, chr 'd', by decide, by decide⟩ .nil)
  have hsufficient : Sufficient clearBuff [chr '%', chr 'd'] [⟨42, []⟩] := by
    unfold Sufficient
    decide +kernel
  exact ⟨hinside, hsufficient, hreads.2 hsufficient hinside⟩

/-- The format `%` is read past its NUL: the `A` behind it is printed. -/
theorem lone_percent_read_past :
    protoPrint clearBuff [chr '%', 0] [] = .error .pastFormat ∧
      protoPrint clearBuff [chr '%', 0, chr 'A', 0] [] = .ok ⟨[chr 'A'], 1, clearBuff, []⟩ := by
  decide +kernel

end SiStultum
