import Mathlib.Data.List.TakeWhile
import Mathlib.Tactic.Common

/-!
# Tokens of a text

A text is read token by token. Each step has its own delimiters: it skips those in front, takes the
longest run of other characters, and drops the one delimiter behind it (`Unread.token`,
`Unread.rest`). `tokens` are the results of a sequence of steps.
-/

namespace Tokens

/-- The text that has not been read, and where it starts. -/
structure Unread (α : Type*) where
  offset : Nat
  text : List α

/-- Where a token starts, and its characters. -/
structure Token (α : Type*) where
  offset : Nat
  chars : List α
  deriving DecidableEq

variable {α : Type*}

/-- The unread text without the delimiters in front. -/
def Unread.start (u : Unread α) (delim : α → Bool) : List α :=
  u.text.dropWhile delim

/-- The next token, `none` if there are only delimiters. -/
def Unread.token (u : Unread α) (delim : α → Bool) : Option (Token α) :=
  if (u.start delim).isEmpty then none
  else some ⟨u.offset + (u.text.takeWhile delim).length, (u.start delim).takeWhile (!delim ·)⟩

/-- The text behind the next token and the delimiter after it. -/
def Unread.rest (u : Unread α) (delim : α → Bool) : Unread α where
  offset := u.offset + (u.text.takeWhile delim).length +
    ((u.start delim).takeWhile (!delim ·)).length + 1
  text := ((u.start delim).dropWhile (!delim ·)).tail

/-- The search moves forward. -/
theorem offset_lt_rest (u : Unread α) (delim : α → Bool) : u.offset < (u.rest delim).offset := by
  show u.offset < u.offset + _ + _ + 1
  omega

/-- The results of a sequence of steps. -/
def tokens (u : Unread α) : List (α → Bool) → List (Option (Token α))
  | [] => []
  | delim :: delims => u.token delim :: tokens (u.rest delim) delims

/-- A text of delimiters has no token and leaves nothing. -/
theorem token_eq_none {u : Unread α} {delim : α → Bool} (h : ∀ c ∈ u.text, delim c = true) :
    u.token delim = none ∧ (u.rest delim).text = [] := by
  have hstart : u.start delim = [] := List.dropWhile_eq_nil_iff.mpr h
  rw [Unread.token, Unread.rest, hstart]
  exact ⟨rfl, rfl⟩

/-- The parts of a text with a token. -/
structure Split (u : Unread α) (delim : α → Bool) (skipped chars ending : List α) : Prop where
  text_eq : u.text = skipped ++ (chars ++ ending)
  of_skipped : ∀ c ∈ skipped, delim c = true
  of_chars : ∀ c ∈ chars, delim c = false
  of_ending : ∀ c ∈ ending.head?, delim c = true
  token_eq : u.token delim = some ⟨u.offset + skipped.length, chars⟩
  rest_eq : u.rest delim = ⟨u.offset + skipped.length + chars.length + 1, ending.tail⟩

/-- The first character that a test stops at does not pass it. -/
theorem not_of_head_drop_while {test : α → Bool} {text : List α} {c : α}
    (h : c ∈ (text.dropWhile test).head?) : test c = false := by
  have hhead := List.head?_dropWhile_not test text
  rw [Option.mem_def.mp h] at hhead
  simpa using hhead

/-- A text that is not all delimiters has a token, which is not empty. -/
theorem exists_split {u : Unread α} {delim : α → Bool} (h : ¬ ∀ c ∈ u.text, delim c = true) :
    ∃ skipped chars ending, chars ≠ [] ∧ Split u delim skipped chars ending := by
  have hstart : u.start delim ≠ [] := mt List.dropWhile_eq_nil_iff.mp h
  refine ⟨u.text.takeWhile delim, (u.start delim).takeWhile (!delim ·),
    (u.start delim).dropWhile (!delim ·), ?_, ?_⟩
  · cases hfirst : u.start delim with
    | nil => exact absurd hfirst hstart
    | cons first more =>
        have hplain : delim first = false :=
          @not_of_head_drop_while _ delim u.text first (by rw [← Unread.start, hfirst]; rfl)
        rw [List.takeWhile_cons_of_pos (by rw [hplain]; rfl)]
        exact List.cons_ne_nil _ _
  constructor
  case text_eq =>
    rw [List.takeWhile_append_dropWhile, Unread.start, List.takeWhile_append_dropWhile]
  case of_skipped => exact fun c hmem => List.mem_takeWhile_imp hmem
  case of_chars =>
    intro c hmem
    simpa using List.mem_takeWhile_imp hmem
  case of_ending =>
    intro c hmem
    simpa using not_of_head_drop_while hmem
  case token_eq => rw [Unread.token, if_neg (by simpa using hstart)]
  case rest_eq => rfl

/-- A token starts in the unread text, and the reading goes on behind it. -/
theorem token_offset {u : Unread α} {delim : α → Bool} {token : Token α}
    (h : u.token delim = some token) :
    u.offset ≤ token.offset ∧ (u.rest delim).offset = token.offset + token.chars.length + 1 := by
  rw [Unread.token] at h
  split at h
  · cases h
  · cases h
    exact ⟨Nat.le_add_right _ _, rfl⟩

/-- Once there is no token, there is none later. -/
theorem tokens_of_nil (delims : List (α → Bool)) {u : Unread α} (h : u.text = []) :
    ∀ token ∈ tokens u delims, token = none := by
  induction delims generalizing u with
  | nil =>
      intro token hmem
      cases hmem
  | cons delim delims ih =>
      have hall : ∀ c ∈ u.text, delim c = true := by
        rw [h]
        exact List.forall_mem_nil _
      obtain ⟨htoken, hrest⟩ := token_eq_none hall
      intro token hmem
      rcases List.mem_cons.mp hmem with rfl | hmore
      · exact htoken
      · exact ih hrest token hmore

/-- After the end there is no more token. -/
theorem tokens_none_after_none {delims : List (α → Bool)} {u : Unread α}
    {before after : List (Option (Token α))} (h : tokens u delims = before ++ none :: after) :
    ∀ token ∈ after, token = none := by
  induction delims generalizing u before with
  | nil => cases before <;> cases h
  | cons delim delims ih =>
      cases before with
      | nil =>
          obtain ⟨hnone, hafter⟩ := List.cons.inj h
          have hall : ∀ c ∈ u.text, delim c = true := by
            by_contra hsome
            obtain ⟨skipped, chars, ending, _, hsplit⟩ := exists_split hsome
            rw [hsplit.token_eq] at hnone
            cases hnone
          rw [← hafter]
          exact tokens_of_nil delims (token_eq_none hall).2
      | cons first before => exact ih (List.cons.inj h).2

end Tokens
