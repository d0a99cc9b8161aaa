import ClangDb.Proofs.Json.Escape
import ClangDb.Proofs.Json.Pieces

/-! # Literals at positions of a line

    The literal at a position is read in one of two ways: from the text behind the
    position, unit by unit, or by moving the position itself, one code point on and
    two behind a backslash.  The second way has to stay on the line: a backslash at
    its end moves the position beyond, so each look is taken only below the length
    of the line.  The two ways read the same.

    What they read is a matter of grammar.  A text begins with at most one literal,
    and it is read if there is one.  So the value of a `"file":` key is the text
    that writes it, however much that text looks like the end of a value or like
    another key.

    Key theorems:
    - `literalAt?_eq`: the two ways agree,
    - `literal?_eq_some_iff`: the grammar,
    - `fileValue?_append`: the value of the first key on a line,
    - `readLiteral_exact`: all of it.
-/

namespace ClangDb

namespace Database

open Json

variable {text s t body rest : Text} {pos start fin : Nat}

/-! ### Reading by positions -/

/-- The first position from another on at which there is no padding. -/
def afterPadding (text : Text) (pos : Nat) : Nat :=
  if h : pos < text.length then
    if isPadding text[pos] then afterPadding text (pos + 1) else pos
  else pos
termination_by text.length - pos

/-- The position of the quote that ends the units from a position on. -/
def closingQuote? (text : Text) (pos : Nat) : Option Nat :=
  if h : pos < text.length then
    if text[pos] = .char '\\' then closingQuote? text (pos + 2)
    else if text[pos] = .char '"' then some pos
    else closingQuote? text (pos + 1)
  else none
termination_by text.length - pos

/-- The code points of a line from a position up to another. -/
def slice (text : Text) (start fin : Nat) : Text := (text.drop start).take (fin - start)

/-- The raw text of the literal that begins at or after a position of a line.  Each code point
    that is looked at stands on the line. -/
def literalAt? (text : Text) (start : Nat) : Option Text :=
  let pos := afterPadding text start
  if h : pos < text.length then
    if text[pos] = .char '"' then (closingQuote? text (pos + 1)).map (slice text (pos + 1))
    else none
  else none

/-- Moving on over padding drops it. -/
theorem drop_afterPadding (text : Text) (pos : Nat) :
    text.drop (afterPadding text pos) = (text.drop pos).dropWhile isPadding := by
  induction pos using afterPadding.induct text with
  | case1 pos hpos hpad ih =>
    rw [afterPadding, dif_pos hpos, if_pos hpad, ih, List.drop_eq_getElem_cons hpos,
      List.dropWhile_cons_of_pos hpad]
  | case2 pos hpos hpad =>
    rw [afterPadding, dif_pos hpos, if_neg hpad, List.drop_eq_getElem_cons hpos,
      List.dropWhile_cons_of_neg hpad]
  | case3 pos hpos =>
    rw [afterPadding, dif_neg hpos, List.drop_eq_nil_of_le (by omega)]
    rfl

/-- **The closing quote stands behind the body that is read**, and there is one if a body is
    read. -/
theorem closingQuote?_eq (text : Text) (pos : Nat) :
    closingQuote? text pos =
      (literalBody? (text.drop pos)).map fun found => pos + found.1.length := by
  induction pos using closingQuote?.induct text with
  | case1 pos hpos hslash ih =>
    rw [closingQuote?, dif_pos hpos, if_pos hslash, ih, List.drop_eq_getElem_cons hpos, hslash]
    by_cases hnext : pos + 1 < text.length
    · -- the escape takes two code points
      rw [List.drop_eq_getElem_cons hnext, literalBody?_escape, Option.map_map]
      congr 1
      funext found
      show pos + 2 + found.1.length = pos + (found.1.length + 1 + 1)
      omega
    · -- the backslash is the last code point of the line, and the position is moved beyond it
      rw [List.drop_eq_nil_of_le (by omega : text.length ≤ pos + 2),
        List.drop_eq_nil_of_le (by omega : text.length ≤ pos + 1)]
      rfl
  | case2 pos hpos hslash hquote =>
    rw [closingQuote?, dif_pos hpos, if_neg hslash, if_pos hquote, List.drop_eq_getElem_cons hpos,
      hquote, literalBody?_quote]
    rfl
  | case3 pos hpos hslash hquote ih =>
    rw [closingQuote?, dif_pos hpos, if_neg hslash, if_neg hquote, ih,
      List.drop_eq_getElem_cons hpos, literalBody?_plain hquote hslash, Option.map_map]
    congr 1
    funext found
    show pos + 1 + found.1.length = pos + (found.1.length + 1)
    omega
  | case4 pos hpos =>
    rw [closingQuote?, dif_neg hpos, List.drop_eq_nil_of_le (by omega)]
    rfl

/-- What stands before the closing quote is the body that is read. -/
theorem slice_of_literalBody? (h : literalBody? (text.drop pos) = some (body, rest)) :
    slice text pos (pos + body.length) = body := by
  have hdrop := (literalBody?_eq_some_iff.mp h).2
  rw [slice, hdrop, Nat.add_sub_cancel_left, List.take_left]

/-- **Reading by positions is reading**, so nothing behind the end of the line is looked at. -/
theorem literalAt?_eq (text : Text) (start : Nat) :
    literalAt? text start = readLiteral? text start := by
  have hdrop := drop_afterPadding text start
  unfold literalAt? readLiteral? literal?
  generalize afterPadding text start = pos at hdrop ⊢
  by_cases hpos : pos < text.length
  · rw [dif_pos hpos, ← hdrop, List.drop_eq_getElem_cons hpos]
    by_cases hquote : text[pos] = .char '"'
    · rw [if_pos hquote, closingQuote?_eq, Option.map_map]
      show _ = if text[pos] = .char '"' then _ else _
      rw [if_pos hquote]
      cases hbody : literalBody? (text.drop (pos + 1)) with
      | none => rfl
      | some found => exact congrArg some (slice_of_literalBody? hbody)
    · rw [if_neg hquote]
      exact (if_neg hquote).symm
  · rw [dif_neg hpos, ← hdrop, List.drop_eq_nil_of_le (by omega)]

/-! ### The grammar -/

/-- Holds of a text that begins with spaces and tabs and a literal. -/
def BeginsLiteral (s body : Text) : Prop :=
  ∃ pad rest, s = pad ++ quoted body rest ∧ (∀ c ∈ pad, c = .char ' ' ∨ c = .char '\t') ∧
    IsBody body

theorem isPadding_iff {c : CodePoint} : isPadding c = true ↔ c = .char ' ' ∨ c = .char '\t' := by
  rw [isPadding, Bool.or_eq_true, decide_eq_true_eq, decide_eq_true_eq]

/-- **The literal that a text begins with is read**, and nothing else is. -/
theorem literal?_eq_some_iff : literal? s = some body ↔ BeginsLiteral s body := by
  constructor
  · intro h
    obtain ⟨pad, rest, hs, hpad, hbody⟩ := eq_of_literal? h
    exact ⟨pad, rest, hs, fun c hc => isPadding_iff.mp (hpad c hc), hbody⟩
  · rintro ⟨pad, rest, rfl, hpad, hbody⟩
    have hquote : (pad ++ quoted body rest).dropWhile isPadding = quoted body rest := by
      rw [List.dropWhile_append_of_pos fun c hc => isPadding_iff.mpr (hpad c hc)]
      exact List.dropWhile_cons_of_neg (by decide)
    rw [literal?, hquote]
    show (literalBody? (body ++ .char '"' :: rest)).map (·.1) = some body
    rw [hbody.literalBody?]
    rfl

/-- A text begins with one literal at most. -/
theorem BeginsLiteral.unique {body' : Text} (h : BeginsLiteral s body)
    (h' : BeginsLiteral s body') : body = body' :=
  Option.some.inj ((literal?_eq_some_iff.mpr h).symm.trans (literal?_eq_some_iff.mpr h'))

/-- A literal ends on the line that it is read from. -/
theorem BeginsLiteral.length_le (h : BeginsLiteral (text.drop start) body) :
    start + body.length + 2 ≤ text.length := by
  obtain ⟨pad, rest, hdrop, _⟩ := h
  have hlength := congrArg List.length hdrop
  simp only [List.length_drop, List.length_append, List.length_cons] at hlength
  omega

/-! ### The value of a key -/

/-- Holds of what stands before a key if the key is not found any earlier. -/
def FirstBefore (key t : Text) : Prop := ∀ a b, t ++ key = a ++ (key ++ b) → b = []

/-- A key is found no earlier exactly if the text is cut at it. -/
theorem firstBefore_iff {key : Text} :
    FirstBefore key t ↔ Text.cut? key (t ++ key) = some (t, []) := by
  constructor
  · intro h
    have hfound := Text.isSome_cut?_append key t []
    rw [List.append_nil] at hfound
    obtain ⟨⟨before, after⟩, hcut⟩ := Option.isSome_iff_exists.mp hfound
    -- behind the key nothing is left, so before it there is all of the text
    have hparts := Text.eq_of_cut? hcut
    obtain rfl := h before after hparts
    rw [List.append_nil] at hparts
    rw [hcut, List.append_cancel_right hparts]
  · intro hcut a b hparts
    have hlength := Text.length_le_of_cut? hcut hparts
    exact List.eq_nil_of_length_eq_zero (Nat.le_zero.mp hlength)

instance (key t : Text) : Decidable (FirstBefore key t) :=
  decidable_of_iff _ firstBefore_iff.symm

/-- The literal behind the first `"file":` key is its value. -/
theorem fileValue?_append (ht : FirstBefore fileKey t) (hs : BeginsLiteral s body) :
    fileValue? (t ++ (fileKey ++ s)) = some body := by
  have hcut := Text.cut?_append (firstBefore_iff.mp ht) s
  rw [List.append_assoc, List.nil_append] at hcut
  rw [fileValue?, hcut]
  exact literal?_eq_some_iff.mpr hs

/-- **What is read at a position of a line is what the grammar of literals says**: the units
    between two quotes behind spaces and tabs.  No text begins with two literals, nothing is read
    where none begins, and reading never looks beyond the end of the line.  So the value of the
    first `"file":` key is the text that writes it as a JSON string, in whatever way it is
    escaped and whatever follows. -/
theorem readLiteral_exact (text : Text) (start : Nat) (ht : FirstBefore fileKey t)
    (value rest : Text) :
    (∀ body, readLiteral? text start = some body ↔ BeginsLiteral (text.drop start) body) ∧
    (∀ body body', BeginsLiteral (text.drop start) body → BeginsLiteral (text.drop start) body' →
      body = body') ∧
    (readLiteral? text start = none ↔ ∀ body, ¬ BeginsLiteral (text.drop start) body) ∧
    (readLiteral? text start = literalAt? text start ∧
      ∀ body, readLiteral? text start = some body → start + body.length + 2 ≤ text.length) ∧
    fileValue? (t ++ (fileKey ++ .char ' ' :: (writeString value ++ rest))) =
      some (escaped value) ∧
    ∀ written, Writes written value →
      fileValue? (t ++ (fileKey ++ .char ' ' :: quoted written rest)) = some written := by
  have hread : ∀ body, readLiteral? text start = some body ↔
      BeginsLiteral (text.drop start) body := fun body => literal?_eq_some_iff
  have hbegins : ∀ {written : Text}, Spelled written →
      BeginsLiteral (.char ' ' :: quoted written rest) written := by
    intro written hwritten
    exact ⟨[.char ' '], rest, rfl, fun c hc => .inl (List.mem_singleton.mp hc), hwritten.isBody⟩
  refine ⟨hread, fun body body' h h' => h.unique h', ?_,
    ⟨(literalAt?_eq text start).symm, fun body h => ((hread body).mp h).length_le⟩, ?_, ?_⟩
  · rw [Option.eq_none_iff_forall_ne_some]
    exact forall_congr' fun body => not_congr (hread body)
  · rw [writeString_eq]
    exact fileValue?_append ht (hbegins (spelled_escaped value))
  · intro written hwritten
    exact fileValue?_append ht (hbegins hwritten.1)

-- an escape that the end of the line cuts off ends no literal
example : readLiteral? "\"a\\" 0 = none := by decide

/-- A line with an escaped quote and an escaped backslash before the quote that closes. -/
def escapedLine : Text := "x \t\"a\\\"\\\\\"\\\""

/-- A file name with a comma, a backslash and text that looks like a key. -/
def keyLikeName : Text := "C:\\a,\"file\": \"b"

theorem readLiteral_exact_keyLikeName :
    FirstBefore fileKey (Text.ofString "\"n\": \"file\", ") ∧
      readLiteral? escapedLine 1 = some (Text.ofString "a\\\"\\\\") ∧
      literalAt? escapedLine 1 = some (Text.ofString "a\\\"\\\\") ∧
      fileValue? (Text.ofString "\"n\": \"file\", " ++ (fileKey ++
          .char ' ' :: (writeString keyLikeName ++ Text.ofString ", \"command\": \"\""))) =
        some (Text.ofString "C:\\\\a,\\\"file\\\": \\\"b") := by
  have ht : FirstBefore fileKey (Text.ofString "\"n\": \"file\", ") := by decide
  obtain ⟨hiff, _, _, ⟨hpositions, _⟩, hvalue, _⟩ :=
    readLiteral_exact escapedLine 1 ht keyLikeName (Text.ofString ", \"command\": \"\"")
  have hbody : IsBody (Text.ofString "a\\\"\\\\") :=
    .plain (by decide) (by decide) (.escape (.escape .nil))
  have hread := (hiff _).mpr ⟨" \t", "\\\"", by decide, by decide, hbody⟩
  exact ⟨ht, hread, hpositions ▸ hread, hvalue⟩

end Database

end ClangDb
