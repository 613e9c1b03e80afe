import SiStultum.Formatter.Strings
import SiStultum.Library.Tokens

/-!
# `strtok`

The string lies in an array of characters, and a pointer into it is an index. The static variable
`last` is kept from call to call. `strtok_tokenises` says that a first call on the string and the
calls with NULL after it return the tokens of its text, whatever their delimiters.
-/

namespace SiStultum

open Tokens

/-- `for (spanp = delim; (sc = *spanp++) != 0;)`: whether `c` is one of the delimiters. -/
def spanHas (c : Char8) : List Char8 → Except Fault Bool
  | [] => .error .outOfBounds
  | sc :: rest => if sc = 0 then .ok false else if c = sc then .ok true else spanHas c rest

/-- `do { if ((sc = *spanp++) == c) .. } while (sc != 0)`: the NUL of the delimiters counts. -/
def spanEnds (c : Char8) : List Char8 → Except Fault Bool
  | [] => .error .outOfBounds
  | sc :: rest => if sc = c then .ok true else if sc = 0 then .ok false else spanEnds c rest

section

variable {size : Nat}

/-- `c = *s++` as long as a test asks for the next character, with the pointer after the last. -/
def scanWhile (test : Char8 → Except Fault Bool) (str : Vector Char8 size) (s : Nat) :
    Except Fault (Char8 × Nat) :=
  if h : s < size then
    match test str[s] with
    | .error fault => .error fault
    | .ok true => scanWhile test str (s + 1)
    | .ok false => .ok (str[s], s + 1)
  else .error .outOfBounds
termination_by size - s

/-- The loop at `cont`. -/
def skipDelims (delim : List Char8) (str : Vector Char8 size) (s : Nat) :
    Except Fault (Char8 × Nat) :=
  scanWhile (fun c => spanHas c delim) str s

/-- The loop behind `tok = s - 1`. -/
def scanToken (delim : List Char8) (str : Vector Char8 size) (s : Nat) :
    Except Fault (Char8 × Nat) :=
  scanWhile (fun c => (! ·) <$> spanEnds c delim) str s

end

/-- The array, and the pointer that `strtok` keeps, `none` for NULL. -/
structure TokState (size : Nat) where
  str : Vector Char8 size
  last : Option Nat

variable {size : Nat}

/-- `strtok`. -/
def strtok (s : Option Nat) (delim : List Char8) (st : TokState size) :
    Except Fault (Option Nat × TokState size) :=
  match s.or st.last with
  | none => .ok (none, st)
  | some s => do
      let (c, s) ← skipDelims delim st.str s
      if c = 0 then pure (none, { st with last := none })
      else
        let tok := s - 1
        let (c, s) ← scanToken delim st.str s
        if c = 0 then pure (some tok, { st with last := none })
        else
          let str ← poke st.str (s - 1) 0
          pure (some tok, ⟨str, some s⟩)

/-- The call `strtok(s, ..)` and calls `strtok(NULL, ..)` after it, with what they return. -/
def strtokCalls (s : Option Nat) :
    List (List Char8) → TokState size → Except Fault (List (Option Nat) × TokState size)
  | [], st => .ok ([], st)
  | delim :: delims, st => do
      let (tok, st) ← strtok s delim st
      let (toks, st) ← strtokCalls none delims st
      pure (tok :: toks, st)

/-- Whether a character is in a string of delimiters. -/
def isDelim (delim : List Char8) (c : Char8) : Bool :=
  (cString delim).contains c

/-- The array with a NUL behind a token of the text that starts at `origin`. -/
def endToken (origin : Nat) (str : List Char8) : Option (Token Char8) → List Char8
  | none => str
  | some token => str.set (origin + token.offset + token.chars.length) 0

/-! ## The loops -/

/-- A delimiter, or one of those after it. -/
theorem is_delim_cons {sc : Char8} (hsc : sc ≠ 0) (rest : List Char8) (c : Char8) :
    isDelim (sc :: rest) c = (c == sc || isDelim rest c) := by
  rw [isDelim, cString, List.takeWhile_cons_of_pos (by simpa using hsc), List.contains_cons]
  rfl

/-- After the NUL there is no delimiter. -/
theorem is_delim_of_nul (rest : List Char8) (c : Char8) : isDelim (0 :: rest) c = false := by
  rw [isDelim, cString, List.takeWhile_cons_of_neg (by simp)]
  rfl

/-- The first loop of `strtok` looks for a delimiter. -/
theorem span_has_eq {delim : List Char8} (hdelim : 0 ∈ delim) (c : Char8) :
    spanHas c delim = .ok (isDelim delim c) := by
  induction delim with
  | nil => cases hdelim
  | cons sc rest ih =>
      rw [spanHas]
      by_cases hsc : sc = 0
      · rw [if_pos hsc, hsc, is_delim_of_nul]
      · have hrest : 0 ∈ rest := (List.mem_cons.mp hdelim).resolve_left (Ne.symm hsc)
        rw [if_neg hsc, is_delim_cons hsc, ih hrest]
        by_cases hc : c = sc
        · rw [if_pos hc, hc, beq_self_eq_true, Bool.true_or]
        · rw [if_neg hc, beq_false_of_ne hc, Bool.false_or]

/-- The second loop looks for a delimiter or a NUL. -/
theorem span_ends_eq {delim : List Char8} (hdelim : 0 ∈ delim) (c : Char8) :
    spanEnds c delim = .ok (isDelim delim c || c == 0) := by
  induction delim with
  | nil => cases hdelim
  | cons sc rest ih =>
      rw [spanEnds]
      by_cases hc : sc = c
      · -- a match with the NUL of the delimiters is a match with a NUL
        rw [if_pos hc]
        by_cases hsc : sc = 0
        · rw [← hc, hsc, beq_self_eq_true, Bool.or_true]
        · rw [is_delim_cons hsc, hc, beq_self_eq_true, Bool.true_or, Bool.true_or]
      · rw [if_neg hc]
        by_cases hsc : sc = 0
        · rw [if_pos hsc, hsc, is_delim_of_nul, beq_false_of_ne (by rw [← hsc]; exact Ne.symm hc)]
          rfl
        · rw [if_neg hsc, is_delim_cons hsc, beq_false_of_ne (Ne.symm hc), Bool.false_or]
          exact ih ((List.mem_cons.mp hdelim).resolve_left (Ne.symm hsc))

/-- A NUL is no delimiter. -/
theorem is_delim_nul (delim : List Char8) : isDelim delim 0 = false := by
  induction delim with
  | nil => rfl
  | cons sc rest ih =>
      by_cases hsc : sc = 0
      · rw [hsc, is_delim_of_nul]
      · rw [is_delim_cons hsc, ih, beq_false_of_ne (Ne.symm hsc), Bool.or_false]

/-- The scan reads the characters that pass the test and one more. -/
theorem scan_while_eq (test : Char8 → Except Fault Bool) {str : Vector Char8 size}
    {before chars rest : List Char8} {c : Char8}
    (hstr : str.toList = before ++ (chars ++ c :: rest))
    (hchars : ∀ ch ∈ chars, test ch = .ok true) (hc : test c = .ok false) :
    scanWhile test str before.length = .ok (c, before.length + chars.length + 1) := by
  have hlength : str.toList.length = size := Vector.length_toList
  induction chars generalizing before with
  | nil =>
      have hroom : before.length < size := by
        rw [← hlength, hstr]
        simp
      have hread : str[before.length] = c := by
        rw [← Vector.getElem_toList (by simpa using hroom)]
        simp [hstr]
      rw [scanWhile, dif_pos hroom, hread, hc]
      rfl
  | cons ch chars ih =>
      obtain ⟨hch, hrest⟩ := List.forall_mem_cons.mp hchars
      have hroom : before.length < size := by
        rw [← hlength, hstr]
        simp
      have hread : str[before.length] = ch := by
        rw [← Vector.getElem_toList (by simpa using hroom)]
        simp [hstr]
      have hnext : str.toList = (before ++ [ch]) ++ (chars ++ c :: rest) := by
        rw [hstr]
        simp
      have hscan := ih hnext hrest
      rw [List.length_append, List.length_singleton] at hscan
      rw [scanWhile, dif_pos hroom, hread, hch, List.length_cons]
      simp only [hscan, Nat.add_assoc, Nat.add_comm 1]

/-! ## One call -/

/-- The next call finds the unread text at the pointer, or nothing at NULL. -/
def UnreadAt (origin : Nat) (str : List Char8) (u : Unread Char8) : Option Nat → Prop
  | none => u.text = []
  | some p => p = origin + u.offset ∧ 0 ∉ u.text ∧
      ∃ before rest, str = before ++ (u.text ++ 0 :: rest) ∧ before.length = p

/-- What a call does. -/
structure TokStep (origin : Nat) (delim : List Char8) (st after : TokState size)
    (u : Unread Char8) : Prop where
  array : after.str.toList = endToken origin st.str.toList (u.token (isDelim delim))
  unread : UnreadAt origin after.str.toList (u.rest (isDelim delim)) after.last
  token : ∀ token ∈ u.token (isDelim delim),
    token.chars ++ [0] <+: after.str.toList.drop (origin + token.offset)

/-- The character after a beginning is replaced. -/
theorem set_behind (before rest : List Char8) (ch other : Char8) :
    (before ++ ch :: rest).set before.length other = before ++ other :: rest := by
  simp

/-- A call that finds only delimiters. -/
theorem strtok_none {origin : Nat} {s : Option Nat} {delim : List Char8} (hdelim : 0 ∈ delim)
    {st : TokState size} {u : Unread Char8} (h : UnreadAt origin st.str.toList u (s.or st.last))
    (hall : ∀ c ∈ u.text, isDelim delim c = true) :
    strtok s delim st = .ok (none, { st with last := none }) := by
  rw [strtok]
  cases hs : s.or st.last with
  | none =>
      obtain ⟨str, last⟩ := st
      obtain rfl : last = none := (Option.or_eq_none_iff.mp hs).2
      rfl
  | some p =>
      rw [hs] at h
      obtain ⟨_, _, before, rest, hstr, rfl⟩ := h
      have hskip := scan_while_eq (fun c => spanHas c delim) hstr
        (fun c hmem => by rw [span_has_eq hdelim, hall c hmem])
        (by rw [span_has_eq hdelim, is_delim_nul])
      simp only [skipDelims, hskip, ok_bind, if_true]
      rfl

/-- A call that finds a token, up to the character behind it. -/
theorem strtok_scans {delim : List Char8} (hdelim : 0 ∈ delim) {str : Vector Char8 size}
    {before skipped more tail : List Char8} {first c : Char8}
    (hstr : str.toList = before ++ (skipped ++ (first :: more ++ c :: tail)))
    (hskipped : ∀ ch ∈ skipped, isDelim delim ch = true)
    (hchars : ∀ ch ∈ first :: more, isDelim delim ch = false ∧ ch ≠ 0)
    (hc : isDelim delim c = true ∨ c = 0) :
    skipDelims delim str before.length = .ok (first, before.length + skipped.length + 1) ∧
      scanToken delim str (before.length + skipped.length + 1) =
        .ok (c, before.length + skipped.length + (first :: more).length + 1) := by
  obtain ⟨hfirst, hmore⟩ := List.forall_mem_cons.mp hchars
  constructor
  · have hfrom : str.toList = before ++ (skipped ++ first :: (more ++ c :: tail)) := by
      rw [hstr, List.cons_append]
    exact scan_while_eq (fun c => spanHas c delim) hfrom
      (fun ch hmem => by rw [span_has_eq hdelim, hskipped ch hmem])
      (by rw [span_has_eq hdelim, hfirst.1])
  · have hfrom : str.toList = (before ++ (skipped ++ [first])) ++ (more ++ c :: tail) := by
      rw [hstr]
      simp
    have hscan := scan_while_eq (fun c => (! ·) <$> spanEnds c delim) hfrom ?_ ?_
    · rw [List.length_append, List.length_append, List.length_singleton, ← Nat.add_assoc] at hscan
      rw [scanToken, hscan, List.length_cons]
      simp only [Nat.add_assoc, Nat.add_comm 1]
    · intro ch hmem
      obtain ⟨hplain, hne⟩ := hmore ch hmem
      show (! ·) <$> spanEnds ch delim = .ok true
      rw [span_ends_eq hdelim, hplain, beq_false_of_ne hne]
      rfl
    · show (! ·) <$> spanEnds c delim = .ok false
      rw [span_ends_eq hdelim]
      rcases hc with hc | rfl
      · rw [hc]
        rfl
      · rw [beq_self_eq_true, Bool.or_true]
        rfl

/-- A call that finds a token: the array gets a NUL in place of the character behind it. -/
theorem strtok_some {s : Option Nat} {delim : List Char8} (hdelim : 0 ∈ delim)
    {st : TokState size} {before skipped chars tail : List Char8} {c : Char8}
    (hs : s.or st.last = some before.length) (hne : chars ≠ [])
    (hstr : st.str.toList = before ++ (skipped ++ (chars ++ c :: tail)))
    (hskipped : ∀ ch ∈ skipped, isDelim delim ch = true)
    (hchars : ∀ ch ∈ chars, isDelim delim ch = false ∧ ch ≠ 0)
    (hc : isDelim delim c = true ∨ c = 0) :
    ∃ after, strtok s delim st = .ok (some (before.length + skipped.length), after) ∧
      after.str.toList = before ++ (skipped ++ (chars ++ 0 :: tail)) ∧
      after.last = if c = 0 then none
        else some (before.length + skipped.length + chars.length + 1) := by
  cases chars with
  | nil => exact absurd rfl hne
  | cons first more =>
      have hfirst : first ≠ 0 := (hchars first List.mem_cons_self).2
      obtain ⟨hskip, hscan⟩ := strtok_scans hdelim hstr hskipped hchars hc
      rw [strtok, hs]
      simp only [hskip, ok_bind, if_neg hfirst, hscan, Nat.add_sub_cancel]
      by_cases hnul : c = 0
      · rw [hnul] at hstr
        rw [if_pos hnul]
        exact ⟨_, rfl, hstr, (if_pos hnul).symm⟩
      · have hlength : before.length + skipped.length + (first :: more).length =
            (before ++ (skipped ++ first :: more)).length := by
          simp only [List.length_append, Nat.add_assoc]
        have hbefore : st.str.toList = (before ++ (skipped ++ first :: more)) ++ c :: tail := by
          rw [hstr]
          simp only [List.append_assoc]
        have hroom : (before ++ (skipped ++ first :: more)).length < size := by
          have hsize : st.str.toList.length = size := Vector.length_toList
          rw [← hsize, hbefore]
          simp
        rw [if_neg hnul, hlength, poke_of_lt st.str hroom]
        refine ⟨_, rfl, ?_, (if_neg hnul).symm⟩
        rw [Vector.toList_set, hbefore, set_behind]
        simp only [List.append_assoc]

/-- Behind a token with its NUL stands the rest of the text, if the character that became the NUL
was not the end of the text. -/
theorem unread_behind {origin : Nat} {delim : Char8 → Bool} {u : Unread Char8}
    {before skipped chars ending rest tail : List Char8} {c : Char8}
    (hsplit : Split u delim skipped chars ending) (hnul : 0 ∉ u.text)
    (hending : ending ++ 0 :: rest = c :: tail) (hp : before.length = origin + u.offset) :
    UnreadAt origin (before ++ (skipped ++ (chars ++ 0 :: tail))) (u.rest delim)
      (if c = 0 then none else some (before.length + skipped.length + chars.length + 1)) := by
  rw [hsplit.rest_eq]
  cases ending with
  | nil =>
      obtain ⟨rfl, rfl⟩ := List.cons.inj hending
      rw [if_pos rfl]
      rfl
  | cons ch ending =>
      obtain ⟨rfl, rfl⟩ := List.cons.inj hending
      rw [hsplit.text_eq] at hnul
      simp only [List.mem_append, List.mem_cons, not_or] at hnul
      obtain ⟨_, _, hne_nul, hnul_ending⟩ := hnul
      rw [if_neg (Ne.symm hne_nul)]
      refine ⟨?_, hnul_ending, before ++ (skipped ++ (chars ++ [0])), rest, ?_, ?_⟩
      · show before.length + skipped.length + chars.length + 1 =
          origin + (u.offset + skipped.length + chars.length + 1)
        omega
      · simp only [List.append_assoc, List.tail_cons, List.singleton_append]
        rfl
      · simp only [List.length_append, List.length_singleton, ← Nat.add_assoc]

/-- A call with a token left in the text. -/
theorem strtok_step_found {origin : Nat} {s : Option Nat} {delim : List Char8}
    (hdelim : 0 ∈ delim) {st : TokState size} {u : Unread Char8}
    {skipped chars ending : List Char8} (hne : chars ≠ [])
    (hsplit : Split u (isDelim delim) skipped chars ending) (hnul : 0 ∉ u.text)
    {before rest : List Char8} (hs : s.or st.last = some before.length)
    (hp : before.length = origin + u.offset)
    (hstr : st.str.toList = before ++ (u.text ++ 0 :: rest)) :
    ∃ after, strtok s delim st =
        .ok ((u.token (isDelim delim)).map fun token => origin + token.offset, after) ∧
      TokStep origin delim st after u := by
  -- the character behind the token is a delimiter or the NUL of the text
  obtain ⟨c, tail, hending, hc⟩ : ∃ c tail, ending ++ 0 :: rest = c :: tail ∧
      (isDelim delim c = true ∨ c = 0) := by
    cases ending with
    | nil => exact ⟨0, rest, rfl, .inr rfl⟩
    | cons c ending => exact ⟨c, _, rfl, .inl (hsplit.of_ending c rfl)⟩
  have htext : st.str.toList = before ++ (skipped ++ (chars ++ c :: tail)) := by
    rw [hstr, hsplit.text_eq, ← hending]
    simp only [List.append_assoc]
  have hchars : ∀ ch ∈ chars, isDelim delim ch = false ∧ ch ≠ 0 := by
    intro ch hmem
    refine ⟨hsplit.of_chars ch hmem, ?_⟩
    rintro rfl
    rw [hsplit.text_eq] at hnul
    exact hnul (List.mem_append_right _ (List.mem_append_left _ hmem))
  obtain ⟨after, hcall, harray, hlast⟩ :=
    strtok_some hdelim hs hne htext hsplit.of_skipped hchars hc
  have hoffset : origin + (u.offset + skipped.length) = before.length + skipped.length := by
    omega
  refine ⟨after, ?_, ?_⟩
  · rw [hcall, hsplit.token_eq, Option.map_some, hoffset]
  constructor
  case array =>
    have hend : origin + (u.offset + skipped.length) + chars.length =
        (before ++ (skipped ++ chars)).length := by
      simp only [List.length_append, ← Nat.add_assoc]
      omega
    have hbefore : st.str.toList = (before ++ (skipped ++ chars)) ++ c :: tail := by
      rw [htext]
      simp only [List.append_assoc]
    rw [hsplit.token_eq, harray, endToken, hend, hbefore, set_behind]
    simp only [List.append_assoc]
  case unread =>
    rw [hlast, harray]
    exact unread_behind hsplit hnul hending hp
  case token =>
    intro token hmem
    rw [hsplit.token_eq] at hmem
    cases hmem
    rw [hoffset, harray, ← List.append_assoc, ← List.length_append, List.drop_left]
    exact ⟨tail, by simp only [List.append_assoc, List.singleton_append]⟩

/-- A call of `strtok` returns the next token and cuts it off. -/
theorem strtok_step {origin : Nat} {s : Option Nat} {delim : List Char8} (hdelim : 0 ∈ delim)
    {st : TokState size} {u : Unread Char8}
    (h : UnreadAt origin st.str.toList u (s.or st.last)) :
    ∃ after, strtok s delim st =
        .ok ((u.token (isDelim delim)).map fun token => origin + token.offset, after) ∧
      TokStep origin delim st after u := by
  by_cases hall : ∀ c ∈ u.text, isDelim delim c = true
  · obtain ⟨htoken, hrest⟩ := token_eq_none hall
    refine ⟨{ st with last := none }, ?_, ?_, hrest, ?_⟩
    · rw [strtok_none hdelim h hall, htoken]
      rfl
    · rw [htoken]
      rfl
    · intro token hmem
      rw [htoken] at hmem
      cases hmem
  · obtain ⟨skipped, chars, ending, hne, hsplit⟩ := exists_split hall
    cases hs : s.or st.last with
    | none =>
        rw [hs] at h
        have hnil : u.text = [] := h
        exact absurd (by rw [hnil]; exact List.forall_mem_nil _) hall
    | some p =>
        rw [hs] at h
        obtain ⟨hp, hnul, before, rest, hstr, rfl⟩ := h
        exact strtok_step_found hdelim hne hsplit hnul hs hp hstr

/-! ## A sequence of calls -/

/-- A call writes behind what has been read. -/
theorem take_end_token (origin : Nat) (str : List Char8) (u : Unread Char8)
    (delim : Char8 → Bool) :
    (endToken origin str (u.token delim)).take (origin + u.offset) =
      str.take (origin + u.offset) := by
  cases htoken : u.token delim with
  | none => rfl
  | some token =>
      have hle := (token_offset htoken).1
      rw [endToken, List.take_set_of_le (by omega)]

/-- A part of an array that is kept. -/
theorem prefix_drop_of_take_eq {text str other : List Char8} {start bound : Nat}
    (h : text <+: str.drop start) (hbound : start + text.length ≤ bound)
    (hkeep : other.take bound = str.take bound) : text <+: other.drop start := by
  have hpart (chars : List Char8) : (chars.drop start).take text.length =
      ((chars.take bound).take (start + text.length)).drop start := by
    rw [List.take_take, Nat.min_eq_left hbound, List.take_drop]
  rw [List.prefix_iff_eq_take] at h ⊢
  rw [hpart, hkeep, ← hpart]
  exact h

/-- What a sequence of calls does: it returns the tokens of the unread text one after the other,
each with the delimiters of its call and terminated in place, and NULL from the call on that finds
only delimiters. Nothing is written but a NUL behind each token. -/
structure TokRun (origin : Nat) (delims : List (List Char8)) (st after : TokState size)
    (pointers : List (Option Nat)) (u : Unread Char8) : Prop where
  pointers_eq : pointers = (tokens u (delims.map isDelim)).map
    (Option.map fun token => origin + token.offset)
  array : after.str.toList =
    (tokens u (delims.map isDelim)).foldl (endToken origin) st.str.toList
  keep : after.str.toList.take (origin + u.offset) = st.str.toList.take (origin + u.offset)
  token : ∀ token, some token ∈ tokens u (delims.map isDelim) →
    token.chars ++ [0] <+: after.str.toList.drop (origin + token.offset)
  once_null : ∀ sooner later, pointers = sooner ++ none :: later →
    ∀ pointer ∈ later, pointer = none

/-- The calls after one that returned NULL return NULL. -/
theorem pointers_once_null {origin : Nat} {u : Unread Char8} {delims : List (Char8 → Bool)}
    {sooner later : List (Option Nat)}
    (h : (tokens u delims).map (Option.map fun token => origin + token.offset) =
      sooner ++ none :: later) :
    ∀ pointer ∈ later, pointer = none := by
  obtain ⟨before, more, htokens, _, hmore⟩ := List.map_eq_append_iff.mp h
  obtain ⟨token, after, rfl, hnone, rfl⟩ := List.map_eq_cons_iff.mp hmore
  obtain rfl : token = none := Option.map_eq_none_iff.mp hnone
  intro pointer hmem
  obtain ⟨other, hother, rfl⟩ := List.mem_map.mp hmem
  rw [tokens_none_after_none htokens other hother]
  rfl

/-- `strtok` called with some pointer and then with NULL. -/
theorem strtok_calls_run {origin : Nat} {s : Option Nat} {delims : List (List Char8)}
    (hdelims : ∀ delim ∈ delims, 0 ∈ delim) {st : TokState size} {u : Unread Char8}
    (h : UnreadAt origin st.str.toList u (s.or st.last)) :
    ∃ pointers after, strtokCalls s delims st = .ok (pointers, after) ∧
      TokRun origin delims st after pointers u := by
  induction delims generalizing s st u with
  | nil =>
      refine ⟨[], st, rfl, rfl, rfl, rfl, ?_, ?_⟩
      · intro token hmem
        cases hmem
      · intro sooner later hnone
        cases sooner <;> cases hnone
  | cons delim delims ih =>
      obtain ⟨hdelim, hrest⟩ := List.forall_mem_cons.mp hdelims
      obtain ⟨middle, hcall, hstep⟩ := strtok_step hdelim h
      obtain ⟨pointers, after, hcalls, hrun⟩ := ih hrest (by
        rw [Option.none_or]
        exact hstep.unread)
      refine ⟨((u.token (isDelim delim)).map fun token => origin + token.offset) :: pointers, after,
        ?_, ?_⟩
      · rw [strtokCalls, hcall]
        simp only [ok_bind, hcalls]
        rfl
      have hpointers : ((u.token (isDelim delim)).map fun token => origin + token.offset) ::
          pointers = (tokens u ((delim :: delims).map isDelim)).map
            (Option.map fun token => origin + token.offset) := by
        rw [hrun.pointers_eq]
        rfl
      constructor
      case pointers_eq => exact hpointers
      case array =>
        rw [hrun.array, hstep.array]
        rfl
      case keep =>
        -- the later calls keep more than the text before this token
        have hlt := offset_lt_rest u (isDelim delim)
        have hkeep := congrArg (List.take (origin + u.offset)) hrun.keep
        rw [List.take_take, List.take_take, Nat.min_eq_left (by omega)] at hkeep
        rw [hkeep, hstep.array, take_end_token]
      case token =>
        intro token hmem
        rcases List.mem_cons.mp hmem with hfirst | hlater
        · obtain ⟨_, hoffset⟩ := token_offset hfirst.symm
          refine prefix_drop_of_take_eq (hstep.token token hfirst.symm) ?_ hrun.keep
          rw [List.length_append, List.length_singleton]
          omega
        · exact hrun.token token hlater
      case once_null =>
        intro sooner later hnone
        exact pointers_once_null (hpointers.symm.trans hnone)

/-- `strtok` called with a string and then with NULL, whatever it was called with before, returns
the tokens of the string. -/
theorem strtok_tokenises (st : TokState size) {before text rest : List Char8}
    (hstr : st.str.toList = before ++ (text ++ 0 :: rest)) (htext : 0 ∉ text)
    {delims : List (List Char8)} (hdelims : ∀ delim ∈ delims, 0 ∈ delim) :
    ∃ pointers after, strtokCalls (some before.length) delims st = .ok (pointers, after) ∧
      TokRun before.length delims st after pointers ⟨0, text⟩ := by
  have hunread : UnreadAt before.length st.str.toList ⟨0, text⟩
      ((some before.length).or st.last) :=
    ⟨rfl, htext, before, rest, hstr, rfl⟩
  exact strtok_calls_run hdelims hunread

/-- `"a,b"` in an array of its own. -/
def commaString : TokState 4 :=
  ⟨#v[chr 'a', chr ',', chr 'b', 0], some 2⟩

/-- Three calls on a string with two tokens. -/
theorem comma_string_tokenised :
    ∃ pointers after,
      strtokCalls (some 0) [[chr ',', 0], [0], [chr ',', 0]] commaString = .ok (pointers, after) ∧
      TokRun 0 [[chr ',', 0], [0], [chr ',', 0]] commaString after pointers
        ⟨0, [chr 'a', chr ',', chr 'b']⟩ :=
  @strtok_tokenises 4 commaString [] [chr 'a', chr ',', chr 'b'] [] rfl (by decide) _ (by decide)

example : (strtokCalls (some 0) [[chr ',', 0], [0], [chr ',', 0]] commaString).map Prod.fst =
    .ok [some 0, some 2, none] := by
  decide +kernel

end SiStultum
