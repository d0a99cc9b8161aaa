import ClangDb.Proofs.Text.Occurrence

/-! # Words of a command

    A command lists its arguments on one line; the body of a response file lists
    them again, each quoted one at the end of a line.  Spaces and newlines outside
    double quotes separate the words of both, so both are read as the words of
    their arguments.

    Every quote of such a command stands at the boundary of an argument.

    Key theorems:
    - `wordsFrom_quoted`, `mem_wordsFrom`: what a word may hold,
    - `wordsFrom_argument`: an argument is read as its word,
    - `readWords_line`, `readWords_lines`: the words of a command and of a body,
    - `atBoundary_of_line`: where the quotes of a command stand.
-/

namespace ClangDb

namespace Arguments

variable {c : CodePoint} {s rest : Text}

/-! ### Words -/

/-- Whether a code point separates words. -/
def separates (c : CodePoint) : Bool := c = .char ' ' || c = .char '\n'

/-- The words of a text in the middle of which stands what `word` has of a word; `quoted` says
    whether a quote is open. -/
def wordsFrom : (quoted : Bool) → (word : Option Text) → Text → List Text
  | _, word, [] => word.toList
  | quoted, word, c :: s =>
    if c = .char '"' then wordsFrom (!quoted) (some (word.getD [])) s
    else if !quoted && separates c then word.toList ++ wordsFrom quoted none s
    else wordsFrom quoted (some (word.getD [] ++ [c])) s

/-- The words of a text: spaces and newlines outside double quotes separate, double quotes group
    and are dropped. -/
def readWords (s : Text) : List Text := wordsFrom false none s

theorem wordsFrom_quote (quoted : Bool) (word : Option Text) (s : Text) :
    wordsFrom quoted word (.char '"' :: s) = wordsFrom (!quoted) (some (word.getD [])) s := by
  rw [wordsFrom, if_pos rfl]

theorem wordsFrom_separator (hc : separates c = true) (word : Option Text) (s : Text) :
    wordsFrom false word (c :: s) = word.toList ++ wordsFrom false none s := by
  have hquote : c ≠ .char '"' := by
    rintro rfl
    cases hc
  rw [wordsFrom, if_neg hquote, hc]
  rfl

/-- A run of code points that neither separate nor quote goes on with the word. -/
theorem wordsFrom_append {quoted : Bool} (hquote : .char '"' ∉ s)
    (hs : ∀ c ∈ s, quoted = true ∨ separates c = false) (w rest : Text) :
    wordsFrom quoted (some w) (s ++ rest) = wordsFrom quoted (some (w ++ s)) rest := by
  induction s generalizing w with
  | nil => rw [List.nil_append, List.append_nil]
  | cons c s ih =>
    rw [List.mem_cons, not_or] at hquote
    obtain ⟨hc, hmore⟩ := List.forall_mem_cons.mp hs
    have hgoes : (!quoted && separates c) = false := by
      rcases hc with rfl | hc
      · rfl
      · rw [hc, Bool.and_false]
    rw [List.cons_append, wordsFrom, if_neg (Ne.symm hquote.1), hgoes, if_neg (by decide),
      ih hquote.2 hmore, Option.getD_some, List.append_assoc, List.singleton_append]

/-- Holds of a text before which a word ends. -/
def EndsWord (s : Text) : Prop := ∀ c r, s = c :: r → separates c = true

theorem wordsFrom_end (h : EndsWord s) (w : Text) :
    wordsFrom false (some w) s = w :: wordsFrom false none s := by
  cases s with
  | nil => rfl
  | cons c r =>
    have hc := h c r rfl
    rw [wordsFrom_separator hc, wordsFrom_separator hc]
    rfl

/-- A word is started by its first code point. -/
theorem wordsFrom_start (hc : separates c = false) (s : Text) :
    wordsFrom false none (c :: s) = wordsFrom false (some []) (c :: s) := by
  rw [wordsFrom, wordsFrom, hc]
  rfl

/-- What neither separates nor quotes is read as one word. -/
theorem wordsFrom_bare (hne : s ≠ []) (hquote : .char '"' ∉ s)
    (hs : ∀ c ∈ s, separates c = false) (hrest : EndsWord rest) :
    wordsFrom false none (s ++ rest) = s :: wordsFrom false none rest := by
  have hfrom := wordsFrom_append hquote (fun c hc => .inr (hs c hc) : ∀ c ∈ s, false = true ∨ _)
    [] rest
  obtain ⟨c, s, rfl⟩ := List.exists_cons_of_ne_nil hne
  rw [List.cons_append, wordsFrom_start (hs c List.mem_cons_self), ← List.cons_append, hfrom,
    wordsFrom_end hrest]
  rfl

/-- A quoted text is read as one word with what stands right before it. -/
theorem wordsFrom_quoted {option : Text} (hplain : .char '"' ∉ option)
    (hoption : ∀ c ∈ option, separates c = false) (hquote : .char '"' ∉ s)
    (hrest : EndsWord rest) :
    wordsFrom false none (option ++ .char '"' :: (s ++ .char '"' :: rest)) =
      (option ++ s) :: wordsFrom false none rest := by
  have hopen : ∀ r, wordsFrom false none (option ++ .char '"' :: r) =
      wordsFrom true (some option) r := by
    intro r
    have hfrom := wordsFrom_append hplain
      (fun c hc => .inr (hoption c hc) : ∀ c ∈ option, false = true ∨ _) [] (.char '"' :: r)
    rw [wordsFrom_quote] at hfrom
    cases option with
    | nil => exact wordsFrom_quote false none r
    | cons c o =>
      rw [List.cons_append, wordsFrom_start (hoption c List.mem_cons_self)]
      exact hfrom
  have hinside := wordsFrom_append hquote (fun _ _ => .inl (Eq.refl true)) option (.char '"' :: rest)
  rw [hopen, hinside, wordsFrom_quote]
  exact wordsFrom_end hrest (option ++ s)

/-- The words of a text without quotes are not empty and hold no separators. -/
theorem mem_wordsFrom {word : Option Text} (hquote : .char '"' ∉ s)
    (hword : ∀ w ∈ word, w ≠ [] ∧ ∀ c ∈ w, separates c = false) :
    ∀ w ∈ wordsFrom false word s, w ≠ [] ∧ ∀ c ∈ w, separates c = false := by
  induction s generalizing word with
  | nil =>
    intro w hw
    rw [wordsFrom, Option.mem_toList] at hw
    exact hword w hw
  | cons c s ih =>
    rw [List.mem_cons, not_or] at hquote
    rw [wordsFrom, if_neg (Ne.symm hquote.1), Bool.not_false, Bool.true_and]
    cases hc : separates c with
    | true =>
      intro w hw
      rw [if_pos rfl, List.mem_append, Option.mem_toList] at hw
      rcases hw with hw | hw
      · exact hword w hw
      · exact ih hquote.2 (fun w h => by cases h) w hw
    | false =>
      rw [if_neg (by decide)]
      refine ih hquote.2 ?_
      intro w hw
      obtain rfl := Option.some.inj hw
      refine ⟨List.append_ne_nil_of_right_ne_nil _ (List.cons_ne_nil c []), ?_⟩
      intro d hd
      rcases List.mem_append.mp hd with hd | hd
      · cases word with
        | none => cases hd
        | some w => exact (hword w rfl).2 d hd
      · rwa [List.mem_singleton.mp hd]

/-- A text in which nothing separates and nothing quotes is one word. -/
theorem readWords_bare (hne : s ≠ []) (hquote : .char '"' ∉ s)
    (hs : ∀ c ∈ s, separates c = false) : readWords s = [s] := by
  have hend : EndsWord [] := fun _ _ h => by cases h
  have hread := wordsFrom_bare hne hquote hs hend
  rwa [List.append_nil] at hread

/-! ### Arguments -/

/-- An argument of a command. -/
inductive Argument where
  | bare (s : Text)
  /-- A quoted text behind an option. -/
  | quoted (option s : Text)

namespace Argument

/-- The options that are written right before a quote. -/
def options : List Text := ["", "-D", "-I"]

/-- An argument as it is written. -/
def text : Argument → Text
  | .bare s => s
  | .quoted option s => option ++ .char '"' :: (s ++ [.char '"'])

/-- The word that an argument is read as. -/
def word : Argument → Text
  | .bare s => s
  | .quoted option s => option ++ s

/-- Whether an argument ends with a quote. -/
def isQuoted : Argument → Bool
  | .bare _ => false
  | .quoted .. => true

/-- Holds of an argument that can be read: a bare one has no white space, and no text has a quote
    or, behind one, a space. -/
def Valid : Argument → Prop
  | .bare s => s ≠ [] ∧ .char '"' ∉ s ∧ ∀ c ∈ s, c.isBlank = false
  | .quoted option s => option ∈ options ∧ .char '"' ∉ s ∧ s.head? ≠ some (.char ' ')

instance : DecidablePred Valid
  | .bare s => inferInstanceAs
      (Decidable (s ≠ [] ∧ .char '"' ∉ s ∧ ∀ c ∈ s, c.isBlank = false))
  | .quoted option s => inferInstanceAs
      (Decidable (option ∈ options ∧ .char '"' ∉ s ∧ s.head? ≠ some (.char ' ')))

/-- An argument with slashes for backslashes. -/
def slashed : Argument → Argument
  | .bare s => .bare (s.substitute (.char '\\') (.char '/'))
  | .quoted option s => .quoted option (s.substitute (.char '\\') (.char '/'))

end Argument

variable {a : Argument} {args : List Argument} {option : Text}

theorem option_cases (h : option ∈ Argument.options) :
    option = "" ∨ option = "-D" ∨ option = "-I" := by
  simpa [Argument.options] using h

theorem option_plain (h : option ∈ Argument.options) :
    .char '"' ∉ option ∧ .char '\\' ∉ option ∧ ∀ c ∈ option, c.isBlank = false := by
  rcases option_cases h with rfl | rfl | rfl <;> decide

theorem separates_of_not_blank (h : c.isBlank = false) : separates c = false := by
  rw [Bool.eq_false_iff]
  intro hc
  rw [separates, Bool.or_eq_true, decide_eq_true_eq, decide_eq_true_eq] at hc
  rcases hc with rfl | rfl
  · exact absurd h (by decide)
  · exact absurd h (by decide)

/-- An argument with slashes is an argument. -/
theorem Argument.Valid.slashed (ha : a.Valid) : a.slashed.Valid := by
  have hquote : ∀ {s : Text}, .char '"' ∉ s → .char '"' ∉ s.substitute (.char '\\') (.char '/') := by
    intro s hs hmem
    rcases Text.mem_substitute hmem with ⟨h, _⟩ | h
    · exact hs h
    · exact absurd h (by decide)
  cases a with
  | bare s =>
    obtain ⟨hne, hs, hblank⟩ := ha
    refine ⟨fun h => hne (List.map_eq_nil_iff.mp h), hquote hs, ?_⟩
    intro c hc
    rcases Text.mem_substitute hc with ⟨h, _⟩ | rfl
    · exact hblank c h
    · decide
  | quoted option s =>
    obtain ⟨hoption, hs, hhead⟩ := ha
    refine ⟨hoption, hquote hs, ?_⟩
    cases s with
    | nil => exact hhead
    | cons c s =>
      intro h
      have hc : (if c = .char '\\' then .char '/' else c) = CodePoint.char ' ' :=
        Option.some.inj h
      split at hc
      · cases hc
      · exact hhead (congrArg some hc)

theorem substitute_option (h : option ∈ Argument.options) :
    option.substitute (.char '\\') (.char '/') = option :=
  Text.substitute_of_not_mem (option_plain h).2.1 (.char '/')

theorem word_slashed (ha : a.Valid) :
    a.slashed.word = a.word.substitute (.char '\\') (.char '/') := by
  cases a with
  | bare s => rfl
  | quoted option s =>
    have hword : (option ++ s).substitute (.char '\\') (.char '/') =
        option.substitute (.char '\\') (.char '/') ++ s.substitute (.char '\\') (.char '/') :=
      List.map_append
    rw [Argument.word, hword, substitute_option ha.1]
    rfl

theorem isQuoted_slashed (a : Argument) : a.slashed.isQuoted = a.isQuoted := by
  cases a <;> rfl

/-- **An argument is read as its word.** -/
theorem wordsFrom_argument (ha : a.Valid) (hrest : EndsWord rest) :
    wordsFrom false none (a.text ++ rest) = a.word :: wordsFrom false none rest := by
  cases a with
  | bare s =>
    obtain ⟨hne, hquote, hblank⟩ := ha
    exact wordsFrom_bare hne hquote (fun c hc => separates_of_not_blank (hblank c hc)) hrest
  | quoted option s =>
    obtain ⟨hoption, hquote, _⟩ := ha
    obtain ⟨hplain, _, hblank⟩ := option_plain hoption
    rw [Argument.text, List.append_assoc, List.cons_append, List.append_assoc,
      List.singleton_append]
    exact wordsFrom_quoted hplain (fun c hc => separates_of_not_blank (hblank c hc)) hquote hrest

/-! ### The command and the body -/

/-- The arguments of a command, with a space before each. -/
def line (args : List Argument) : Text := args.flatMap fun a => .char ' ' :: a.text

/-- The arguments of a body: the line ends before each that a quoted one precedes. -/
def lines : (afterQuoted : Bool) → List Argument → Text
  | _, [] => []
  | afterQuoted, a :: args =>
    .char (if afterQuoted then '\n' else ' ') :: (a.text ++ lines a.isQuoted args)

theorem endsWord_line (args : List Argument) : EndsWord (line args) := by
  intro c r h
  cases args with
  | nil => cases h
  | cons a args =>
    obtain ⟨rfl, _⟩ := List.cons.inj h
    rfl

theorem endsWord_lines (afterQuoted : Bool) (args : List Argument) :
    EndsWord (lines afterQuoted args) := by
  intro c r h
  cases args with
  | nil => cases h
  | cons a args =>
    obtain ⟨rfl, _⟩ := List.cons.inj h
    cases afterQuoted <;> rfl

/-- A command is read as the words of its arguments. -/
theorem readWords_line (hargs : ∀ a ∈ args, a.Valid) :
    readWords (line args) = args.map Argument.word := by
  induction args with
  | nil => rfl
  | cons a args ih =>
    obtain ⟨ha, hmore⟩ := List.forall_mem_cons.mp hargs
    have hline : line (a :: args) = .char ' ' :: (a.text ++ line args) := rfl
    rw [readWords, hline, wordsFrom_separator rfl, wordsFrom_argument ha (endsWord_line args)]
    exact congrArg (a.word :: ·) (ih hmore)

/-- A body is read as the words of its arguments. -/
theorem readWords_lines (hargs : ∀ a ∈ args, a.Valid) (afterQuoted : Bool) :
    readWords (lines afterQuoted args) = args.map Argument.word := by
  induction args generalizing afterQuoted with
  | nil => rfl
  | cons a args ih =>
    obtain ⟨ha, hmore⟩ := List.forall_mem_cons.mp hargs
    have hseparates : separates (.char (if afterQuoted then '\n' else ' ')) = true := by
      cases afterQuoted <;> rfl
    rw [readWords, lines, wordsFrom_separator hseparates,
      wordsFrom_argument ha (endsWord_lines a.isQuoted args)]
    exact congrArg (a.word :: ·) (ih hmore a.isQuoted)

/-! ### Where the quotes of a command stand -/

/-- Holds of what stands before and behind a quote at the boundary of an argument: it opens an
    argument, by itself or behind an option, or closes one. -/
def AtBoundary (s s' : Text) : Prop :=
  (∃ option ∈ Argument.options, .char ' ' :: option <:+ s) ∨ s' = [] ∨ s'.head? = some (.char ' ')

theorem AtBoundary.append {s' : Text} (h : AtBoundary s s') (before : Text) :
    AtBoundary (before ++ s) s' := by
  rcases h with ⟨option, hoption, hs⟩ | h
  · exact .inl ⟨option, hoption, hs.trans (List.suffix_append before s)⟩
  · exact .inr h

theorem head_line (args : List Argument) :
    line args = [] ∨ (line args).head? = some (.char ' ') := by
  cases args with
  | nil => exact .inl rfl
  | cons a args => exact .inr rfl

/-- The quotes of an argument stand at its boundary. -/
theorem atBoundary_of_argument {s' : Text} (ha : a.Valid) (args : List Argument)
    (h : .char ' ' :: a.text = s ++ .char '"' :: s') : AtBoundary s (s' ++ line args) := by
  cases a with
  | bare w =>
    have hmem : .char '"' ∈ .char ' ' :: w := by
      rw [show .char ' ' :: w = s ++ .char '"' :: s' from h]
      exact List.mem_append_right s List.mem_cons_self
    rcases List.mem_cons.mp hmem with h | h
    · exact absurd h (by decide)
    · exact absurd h ha.2.1
  | quoted option w =>
    obtain ⟨hoption, hquote, _⟩ := ha
    have hopening : .char '"' ∉ .char ' ' :: option := by
      rw [List.mem_cons, not_or]
      exact ⟨by decide, (option_plain hoption).1⟩
    have hparts : (.char ' ' :: option) ++ .char '"' :: (w ++ [.char '"']) =
        s ++ .char '"' :: s' := h
    rcases List.append_eq_append_iff.mp hparts with ⟨m, rfl, hm⟩ | ⟨m, hm, hs'⟩
    · cases m with
      | nil => exact .inl ⟨option, hoption, by rw [List.append_nil]⟩
      | cons c m =>
        -- the quote is behind the opening one, so it is the closing one
        obtain ⟨_, hclosing⟩ := List.cons.inj hm
        obtain ⟨_, _, rfl⟩ :=
          (List.append_cons_inj_of_notMem hquote List.not_mem_nil).mp hclosing
        exact .inr (head_line args)
    · cases m with
      | nil =>
        rw [List.append_nil] at hm
        exact .inl ⟨option, hoption, by rw [hm]⟩
      | cons c m =>
        obtain ⟨rfl, _⟩ := List.cons.inj hs'
        rw [hm] at hopening
        exact absurd (List.mem_append_right s List.mem_cons_self) hopening

/-- **Every quote of a command stands at the boundary of an argument.** -/
theorem atBoundary_of_line {s' : Text} (hargs : ∀ a ∈ args, a.Valid)
    (h : line args = s ++ .char '"' :: s') : AtBoundary s s' := by
  induction args generalizing s with
  | nil => exact absurd h.symm (List.append_ne_nil_of_right_ne_nil s (List.cons_ne_nil _ _))
  | cons a args ih =>
    obtain ⟨ha, hmore⟩ := List.forall_mem_cons.mp hargs
    have hline : (.char ' ' :: a.text) ++ line args = s ++ .char '"' :: s' := h
    rcases List.append_eq_append_iff.mp hline with ⟨m, rfl, hm⟩ | ⟨m, hm, hs'⟩
    · exact (ih hmore hm).append _
    · cases m with
      | nil =>
        rcases head_line args with hnil | hhead
        · rw [hnil] at hs'
          cases hs'
        · rw [List.nil_append] at hs'
          rw [← hs'] at hhead
          exact absurd (Option.some.inj hhead) (by decide)
      | cons c m =>
        obtain ⟨rfl, rfl⟩ := List.cons.inj hs'
        exact atBoundary_of_argument ha args hm

end Arguments

end ClangDb
