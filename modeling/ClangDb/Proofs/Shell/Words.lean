import ClangDb.Shell.Words
import Mathlib.Data.List.Forall2

/-! # Reading words

    A text is read with two things in hand: how the next code point is read, and
    what of a word was read before it.  Most code points go on with the word as
    they are; which do depends on the quote that is open.  A run of these is read
    in one step, so a word is read from its text alone, with or without quotes
    around it, and what comes behind is read on its own.

    Key theorems:
    - `wordsFrom_append`: a run of literal code points,
    - `readsAs_bare`, `readsAs_quoted`: the text of one word,
    - `words_join`: the texts of many words.
-/

namespace ClangDb

namespace Shell

variable {m : Mode} {word : Option Text} {c : CodePoint} {s rest : Text}

/-! ### Steps -/

/-- Holds of a code point that goes on with a word as it is. -/
def IsLiteral : Mode → CodePoint → Prop
  | .plain, c => isSeparator c = false ∧ c ≠ .char '\\' ∧ Quote.of? c = none
  | .quoted q, c => Quote.of? c ≠ some q ∧ ¬ (c = .char '\\' ∧ q = .double)
  | .escaped _, _ => False

theorem wordsFrom_literal (h : IsLiteral m c) (word : Option Text) (rest : Text) :
    wordsFrom m word (c :: rest) = wordsFrom m (extend word [c]) rest := by
  cases m with
  | plain =>
    obtain ⟨hseparator, hbackslash, hquote⟩ := h
    rw [wordsFrom, if_neg (by simp [hseparator]), if_neg hbackslash, hquote]
  | quoted q => rw [wordsFrom, if_neg h.1, if_neg h.2]
  | escaped inside => exact h.elim

theorem wordsFrom_separator (hc : isSeparator c = true) (word : Option Text) (rest : Text) :
    wordsFrom .plain word (c :: rest) =
      (wordsFrom .plain none rest).map (word.toList ++ ·) := by
  rw [wordsFrom, if_pos hc]
  cases wordsFrom .plain none rest with
  | ok words => rfl
  | error e => rfl

/-- A double quote begins a word, if none is begun. -/
theorem wordsFrom_opening (word : Option Text) (rest : Text) :
    wordsFrom .plain word (.char '"' :: rest) =
      wordsFrom (.quoted .double) (extend word []) rest := rfl

theorem wordsFrom_closing (word : Option Text) (rest : Text) :
    wordsFrom (.quoted .double) word (.char '"' :: rest) = wordsFrom .plain word rest := rfl

/-! ### The text of a word -/

/-- A run of literal code points goes on with the word. -/
theorem wordsFrom_append (h : ∀ c ∈ s, IsLiteral m c) (w rest : Text) :
    wordsFrom m (some w) (s ++ rest) = wordsFrom m (some (w ++ s)) rest := by
  induction s generalizing w with
  | nil => rw [List.nil_append, List.append_nil]
  | cons c s ih =>
    obtain ⟨hc, hs⟩ := List.forall_mem_cons.mp h
    calc wordsFrom m (some w) (c :: s ++ rest)
        = wordsFrom m (some (w ++ [c])) (s ++ rest) := wordsFrom_literal hc (some w) (s ++ rest)
      _ = wordsFrom m (some (w ++ [c] ++ s)) rest := ih hs (w ++ [c])
      _ = wordsFrom m (some (w ++ c :: s)) rest := by rw [List.append_assoc, List.singleton_append]

/-- Holds of a text before which a word ends. -/
def EndsWord (rest : Text) : Prop := ∀ c more, rest = c :: more → isSeparator c = true

theorem wordsFrom_end (h : EndsWord rest) (w : Text) :
    wordsFrom .plain (some w) rest = (wordsFrom .plain none rest).map (w :: ·) := by
  cases rest with
  | nil => rfl
  | cons c more =>
    have hc := h c more rfl
    rw [wordsFrom_separator hc, wordsFrom_separator hc]
    cases wordsFrom .plain none more with
    | ok words => rfl
    | error e => rfl

/-- Holds of a text that is read as a word, whatever is read behind it. -/
def ReadsAs (text word : Text) : Prop :=
  ∀ rest, EndsWord rest →
    wordsFrom .plain none (text ++ rest) = (wordsFrom .plain none rest).map (word :: ·)

/-- **A text that is all literal is its own word**, if it is not empty. -/
theorem readsAs_bare (hne : s ≠ []) (h : ∀ c ∈ s, IsLiteral .plain c) : ReadsAs s s := by
  intro rest hrest
  obtain ⟨c, s, rfl⟩ := List.exists_cons_of_ne_nil hne
  obtain ⟨hc, hs⟩ := List.forall_mem_cons.mp h
  -- the first code point begins the word
  calc wordsFrom .plain none (c :: s ++ rest)
      = wordsFrom .plain (some [c]) (s ++ rest) := wordsFrom_literal hc none (s ++ rest)
    _ = wordsFrom .plain (some (c :: s)) rest := wordsFrom_append hs [c] rest
    _ = (wordsFrom .plain none rest).map ((c :: s) :: ·) := wordsFrom_end hrest (c :: s)

/-- **A text in double quotes is a word**, be it empty or not. -/
theorem readsAs_quoted (h : ∀ c ∈ s, IsLiteral (.quoted .double) c) :
    ReadsAs ("\"" ++ s ++ "\"") s := by
  intro rest hrest
  calc wordsFrom .plain none (.char '"' :: (s ++ ("\"" : Text)) ++ rest)
      = wordsFrom (.quoted .double) (some []) (s ++ ("\"" : Text) ++ rest) :=
        wordsFrom_opening none _
    _ = wordsFrom (.quoted .double) (some s) (.char '"' :: rest) := by
        rw [List.append_assoc, wordsFrom_append h]
        rfl
    _ = wordsFrom .plain (some s) rest := wordsFrom_closing (some s) rest
    _ = (wordsFrom .plain none rest).map (s :: ·) := wordsFrom_end hrest s

/-- **Texts with a space between two are read as their words.** -/
theorem words_join {texts ws : List Text} (h : List.Forall₂ ReadsAs texts ws) :
    words (Text.join " " texts) = .ok ws := by
  induction h with
  | nil => rfl
  | @cons text w texts ws hword htexts ih =>
    cases texts with
    | nil =>
      cases htexts
      have hlast := hword [] fun c more hnil => by cases hnil
      rw [List.append_nil] at hlast
      exact hlast
    | cons next texts =>
      have hends : EndsWord (.char ' ' :: Text.join " " (next :: texts)) := by
        intro c more hcons
        rw [← (List.cons.inj hcons).1]
        rfl
      -- the space ends the word and is read as nothing
      calc words (text ++ " " ++ Text.join " " (next :: texts))
          = wordsFrom .plain none (text ++ .char ' ' :: Text.join " " (next :: texts)) := by
            rw [List.append_assoc]
            rfl
        _ = (wordsFrom .plain none (.char ' ' :: Text.join " " (next :: texts))).map (w :: ·) :=
            hword _ hends
        _ = .ok (w :: ws) := by
            rw [wordsFrom_separator rfl, show wordsFrom .plain none _ = .ok ws from ih]
            rfl

end Shell

end ClangDb
