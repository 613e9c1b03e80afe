import SiStultum.Kernel.Session
import SiStultum.PageFrames.FirstFit

/-!
# The kernel's messages

The calls of `serial_printf` in `init_kernel` and `_start` from the return of `init_idt` on:
`kernelScript`. Two of them print the figures of the page frame allocator, and one the string that
has been copied to a mapped page.
-/

namespace SiStultum

/-- The pieces of a text without a directive. -/
def literals (text : List Char8) (plain : ∀ ch ∈ text, ch ≠ 0 ∧ ch ≠ chr '%') : List Piece :=
  text.pmap Piece.literal plain

/-- A text and the pieces after it. -/
theorem printed_literals_append (text : List Char8) (plain : ∀ ch ∈ text, ch ≠ 0 ∧ ch ≠ chr '%')
    {pieces : List Piece} {args : List Arg} {rest : List Char8}
    (hrest : ∃ cnt, printedPieces pieces args = .ok ⟨rest, cnt⟩) :
    ∃ cnt, printedPieces (literals text plain ++ pieces) args = .ok ⟨text ++ rest, cnt⟩ := by
  induction text with
  | nil => exact hrest
  | cons ch text ih =>
      obtain ⟨cnt, hprinted⟩ := ih fun ch hmem => plain ch (List.mem_cons_of_mem _ hmem)
      exact ⟨_, printed_literal_cons ch (plain ch List.mem_cons_self) hprinted⟩

/-- A format without a piece prints nothing. -/
theorem printed_nil (args : List Arg) : ∃ cnt, printedPieces [] args = .ok ⟨[], cnt⟩ :=
  ⟨0, rfl⟩

/-- A message without arguments. -/
def textReport (order : ReadOrder) (text : List Char8)
    (plain : ∀ ch ∈ text, ch ≠ 0 ∧ ch ≠ chr '%') : Report where
  order := order
  pieces := literals text plain ++ []
  args := []
  text := text ++ []
  prints := printed_literals_append text plain (printed_nil [])

/-- `%s`. -/
def stringDirective : CompleteDirective :=
  ⟨[chr 's'], {}, chr 's', by decide, by decide⟩

/-- A `%s` and the pieces after it. -/
theorem printed_string_cons {text target : List Char8} (hstart : text ++ [0] <+: target)
    (htext : 0 ∉ text) (hlength : text.length < 2 ^ 31) (word : BitVec 64) {pieces : List Piece}
    {args : List Arg} {rest : List Char8}
    (hrest : ∃ cnt, printedPieces pieces args = .ok ⟨rest, cnt⟩) :
    ∃ cnt, printedPieces (.directive stringDirective :: pieces) (⟨word, target⟩ :: args) =
      .ok ⟨text ++ rest, cnt⟩ := by
  obtain ⟨cnt, hprinted⟩ := hrest
  have hshown : layout [] (shownOf text (-1)) (-1) false (chr ' ') = text := by
    rw [layout_spaces, shownOf, if_neg (by decide)]
    simp
  have hfirst : (Piece.directive stringDirective).printed (⟨word, target⟩ :: args) =
      .ok ⟨text, text.length⟩ := by
    show printStr target (-1) (-1) false = _
    rw [print_str_stored hstart htext, string_printed_eq hlength (by decide) (by decide), hshown]
  have hkept : (⟨word, target⟩ :: args : List Arg).drop
      (Piece.directive stringDirective).argCount = args := rfl
  rw [printedPieces, hfirst, ok_bind, hkept, hprinted]
  exact ⟨_, rfl⟩

/-- A number of bytes in units of 1024, as `%d` prints it. -/
def kilobytes (bytes : BitVec 64) : List Char8 :=
  intField (signedArg .none (bytes / 1024)) (-1) (-1) false 0 (chr ' ')

/-- A `%d` of such a number, the text after it, and the pieces after them. -/
theorem printed_kilobytes_cons (bytes : BitVec 64) (text : List Char8)
    (plain : ∀ ch ∈ text, ch ≠ 0 ∧ ch ≠ chr '%') {pieces : List Piece} {args : List Arg}
    {rest : List Char8} (hrest : ∃ cnt, printedPieces pieces args = .ok ⟨rest, cnt⟩) :
    ∃ cnt, printedPieces (.directive decimalDirective :: (literals text plain ++ pieces))
        (⟨bytes / 1024, []⟩ :: args) =
      .ok ⟨kilobytes bytes ++ (text ++ rest), cnt⟩ := by
  obtain ⟨_, htext⟩ := printed_literals_append text plain hrest
  exact printed_decimal_cons ⟨rfl, rfl⟩ (by decide) (by decide) _ htext

/-- The texts of the message about the memory. -/
def usedText : List Char8 := " KB USED   ".toList.map chr

def reservedText : List Char8 := " KB RESERVED   ".toList.map chr

def freeText : List Char8 := " KB FREE   ".toList.map chr

def totalText : List Char8 := " KB TOTAL\n".toList.map chr

/-- `[MEM] %d KB USED   %d KB RESERVED   %d KB FREE   %d KB TOTAL`, and a new line. -/
def memReport (order : ReadOrder) (s : PpaState) : Report where
  order := order
  pieces :=
    literals ("[MEM] ".toList.map chr) (by decide +kernel) ++
      .directive decimalDirective :: (literals usedText (by decide +kernel) ++
      .directive decimalDirective :: (literals reservedText (by decide +kernel) ++
      .directive decimalDirective :: (literals freeText (by decide +kernel) ++
      .directive decimalDirective :: (literals totalText (by decide +kernel) ++ []))))
  args := [⟨s.memUsed / 1024, []⟩, ⟨s.memRsvd / 1024, []⟩, ⟨s.memFree / 1024, []⟩,
    ⟨s.memTotal / 1024, []⟩]
  text :=
    "[MEM] ".toList.map chr ++
      (kilobytes s.memUsed ++ (usedText ++
      (kilobytes s.memRsvd ++ (reservedText ++
      (kilobytes s.memFree ++ (freeText ++
      (kilobytes s.memTotal ++ (totalText ++ []))))))))
  prints := printed_literals_append _ _
    (printed_kilobytes_cons _ _ _ (printed_kilobytes_cons _ _ _
      (printed_kilobytes_cons _ _ _ (printed_kilobytes_cons _ _ _ (printed_nil [])))))

example (s : PpaState) : (memReport .secondsFirst s).format =
    "[MEM] %d KB USED   %d KB RESERVED   %d KB FREE   %d KB TOTAL\n".toList.map chr ++ [0] := by
  rfl

/-- The message that prints a string, and a new line. -/
def stringReport (order : ReadOrder) (text : List Char8) (htext : 0 ∉ text)
    (hlength : text.length < 2 ^ 31) (address : BitVec 64) : Report where
  order := order
  pieces := .directive stringDirective :: (literals ("\n".toList.map chr) (by decide +kernel) ++ [])
  args := [⟨address, text ++ [0]⟩]
  text := text ++ ("\n".toList.map chr ++ [])
  prints := printed_string_cons (List.prefix_refl _) htext hlength address
    (printed_literals_append _ _ (printed_nil []))

/-- `print_str`. -/
def printStrText : List Char8 :=
  "DIXITQVE DEVS FIAT LVX ET FACTA EST LVX".toList.map chr

/-- The messages of the kernel, with the allocator before and after the test of the page map. Each
call of `serial_printf` is compiled with an order of its own. -/
def kernelScript (order : Nat → ReadOrder) (before after : PpaState) : Script where
  reports := [
    textReport (order 0) ("IDT loaded.\n".toList.map chr) (by decide +kernel),
    memReport (order 1) before,
    textReport (order 2) ("Testing memory mapping...\n".toList.map chr) (by decide +kernel),
    stringReport (order 3) printStrText (by decide +kernel) (by decide +kernel) 0x600000000,
    textReport (order 4) ("Memory mapping OK.\n".toList.map chr) (by decide +kernel),
    memReport (order 5) after]
  last := textReport (order 6) ("Now try typing something.\n".toList.map chr) (by decide +kernel)

end SiStultum
