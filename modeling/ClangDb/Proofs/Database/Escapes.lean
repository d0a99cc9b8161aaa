import ClangDb.Proofs.Database.CommandLine

/-! # Escapes in commands

    A command is scanned as raw text, for keys, compilers and references that all
    end in an escaped quote.  What such a search finds lies inside the text of the
    command, since a quote that is not escaped follows no lone backslash; and the
    text may be cut behind it.

    `unescape` says what a command means, as far as backslashes and quotes go.  A
    path that is escaped means the path with slashes for its separators.

    Key theorems:
    - `infix_of_quoted`: a search stays inside the command,
    - `IsBody.append_iff`, `IsBody.take_escapedQuote`: where the text may be cut,
    - `unescape_escape`: what an escaped path means,
    - `IsPathBody.slashed`: a path with doubled backslashes.
-/

namespace ClangDb

namespace Database

open Json

variable {a b s body rest pat : Text} {c d e : CodePoint}

/-! ### Cutting a command -/

/-- Behind a body only a body makes a body. -/
theorem IsBody.append_iff (ha : IsBody a) : IsBody (a ++ b) ↔ IsBody b := by
  refine ⟨fun h => ?_, ha.append⟩
  -- the units of the front are read off the whole one by one
  induction ha with
  | nil => exact h
  | @plain c r _ hc _ ih =>
    rw [List.cons_append] at h
    generalize r ++ b = x at h ih
    cases h with
    | plain _ _ h => exact ih h
    | escape => exact absurd rfl hc
  | @escape d r _ ih =>
    rw [List.cons_append, List.cons_append] at h
    generalize r ++ b = x at h ih
    cases h with
    | plain _ hc => exact absurd rfl hc
    | escape h => exact ih h

/-- A backslash behind a code point that is none begins an escape, so the text before it is a
    body, and something follows it. -/
theorem IsBody.take_backslash (h : IsBody body) (hbody : body = a ++ e :: .char '\\' :: b)
    (he : e ≠ .char '\\') : IsBody (a ++ [e]) ∧ b ≠ [] := by
  induction h generalizing a with
  | nil => simp at hbody
  | plain hq hb hr ih =>
    cases a with
    | nil =>
      obtain ⟨rfl, rfl⟩ := List.cons.inj hbody
      refine ⟨.plain hq hb .nil, ?_⟩
      rintro rfl
      cases hr with
      | plain _ hslash => exact hslash rfl
    | cons x a =>
      obtain ⟨rfl, hbody'⟩ := List.cons.inj hbody
      exact ⟨.plain hq hb (ih hbody').1, (ih hbody').2⟩
  | escape hr ih =>
    rcases a with _ | ⟨x, _ | ⟨y, a⟩⟩
    · exact absurd (List.cons.inj hbody).1.symm he
    · -- the code point before the backslash is the second half of an escape
      obtain ⟨rfl, hbody'⟩ := List.cons.inj hbody
      obtain ⟨rfl, rfl⟩ := List.cons.inj hbody'
      refine ⟨.escape .nil, ?_⟩
      rintro rfl
      cases hr with
      | plain _ hslash => exact hslash rfl
    · obtain ⟨rfl, hbody'⟩ := List.cons.inj hbody
      obtain ⟨rfl, hbody''⟩ := List.cons.inj hbody'
      exact ⟨.escape (ih hbody'').1, (ih hbody'').2⟩

/-- Holds of a text that ends in an escaped quote. -/
def EndsEscaped (pat : Text) : Prop :=
  ∃ front e, pat = front ++ [e, .char '\\', .char '"'] ∧ e ≠ .char '\\'

theorem endsEscaped_compilerEnd (dialect : Dialect) : EndsEscaped dialect.compilerEnd :=
  compilerEnd_eq dialect

theorem endsEscaped_reference : EndsEscaped reference := ⟨[], .char '@', rfl, by decide⟩

/-- **What ends in an escaped quote and is found in a literal, or behind it where no quote
    follows, is found in its body.** -/
theorem infix_of_quoted (hpat : EndsEscaped pat) (hbody : IsBody body) (hrest : .char '"' ∉ rest) :
    pat <:+: body ++ .char '"' :: rest ↔ pat <:+: body := by
  refine ⟨?_, fun h => h.trans (List.prefix_append body _).isInfix⟩
  obtain ⟨front, e, rfl, he⟩ := hpat
  rintro ⟨x, y, h⟩
  have hparts : (x ++ (front ++ [e, .char '\\'])) ++ .char '"' :: y = body ++ .char '"' :: rest := by
    rw [← h]
    simp
  -- the body does not end in a backslash that escapes nothing
  have hlone : x ++ (front ++ [e, .char '\\']) ≠ body := by
    intro heq
    exact (hbody.take_backslash (a := x ++ front) (b := []) (by rw [← heq]; simp) he).2 rfl
  rcases List.append_eq_append_iff.mp hparts with ⟨m, hm, hq⟩ | ⟨m, hm, hq⟩
  · cases m with
    | nil => exact absurd (hm.trans (List.append_nil _)).symm hlone
    | cons q m =>
      obtain ⟨rfl, _⟩ := List.cons.inj hq
      exact ⟨x, m, by rw [hm]; simp⟩
  · cases m with
    | nil => exact absurd (hm.trans (List.append_nil _)) hlone
    | cons q m =>
      obtain ⟨rfl, rfl⟩ := List.cons.inj hq
      exact absurd (by simp) hrest

/-- A body may be cut behind what ends in an escaped quote. -/
theorem IsBody.of_endsEscaped (h : IsBody (a ++ (pat ++ b))) (hpat : EndsEscaped pat) :
    IsBody (a ++ pat) ∧ IsBody b := by
  obtain ⟨front, e, rfl, he⟩ := hpat
  have htake := (h.take_backslash (a := a ++ front) (b := .char '"' :: b) (by simp) he).1
  have hquote : IsBody [.char '\\', .char '"'] := .escape .nil
  have hfront : IsBody (a ++ (front ++ [e, .char '\\', .char '"'])) := by
    simpa using htake.append hquote
  exact ⟨hfront, (hfront.append_iff).mp (by simpa using h)⟩

/-! ### What a command means -/

/-- A body with its escaped backslashes and quotes as they are meant.  Other escapes stay. -/
def unescape : Text → Text
  | [] => []
  | [c] => [c]
  | c :: d :: r =>
    if c = .char '\\' then
      if d = .char '\\' ∨ d = .char '"' then d :: unescape r else c :: d :: unescape r
    else c :: unescape (d :: r)

theorem unescape_plain (hc : c ≠ .char '\\') (s : Text) : unescape (c :: s) = c :: unescape s := by
  cases s with
  | nil => rfl
  | cons d s => rw [unescape, if_neg hc]

theorem unescape_quote (s : Text) :
    unescape (.char '\\' :: .char '"' :: s) = .char '"' :: unescape s := by
  rw [unescape, if_pos rfl, if_pos (.inr rfl)]

theorem unescape_backslash (s : Text) :
    unescape (.char '\\' :: .char '\\' :: s) = .char '\\' :: unescape s := by
  rw [unescape, if_pos rfl, if_pos (.inl rfl)]

theorem IsBody.unescape_append (ha : IsBody a) (b : Text) :
    unescape (a ++ b) = unescape a ++ unescape b := by
  induction ha with
  | nil => rfl
  | plain _ hc _ ih =>
    rw [List.cons_append, unescape_plain hc, unescape_plain hc, ih, List.cons_append]
  | @escape d r _ ih =>
    rw [List.cons_append, List.cons_append, unescape, unescape, ih]
    split
    · split
      · rw [List.cons_append]
      · rw [List.cons_append, List.cons_append]
    · next h => exact absurd rfl h

/-! ### Escaped paths -/

/-- A path with slashes for its backslashes, doubled or single. -/
def slashed (path : Text) : Text := (path.replaceAll "\\\\" "/").substitute '\\' '/'

theorem slashed_plain (hc : c ≠ .char '\\') (s : Text) : slashed (c :: s) = c :: slashed s := by
  have hstart : ¬ Text.ofString "\\\\" <+: c :: s :=
    fun h => hc (List.cons_prefix_cons.mp h).1.symm
  rw [slashed, Text.replaceAll_cons hstart]
  exact congrArg (· :: slashed s) (if_neg hc)

theorem slashed_pair (s : Text) :
    slashed (.char '\\' :: .char '\\' :: s) = .char '/' :: slashed s := by
  have hpair : Text.replaceAll (.char '\\' :: .char '\\' :: s) "\\\\" "/" =
      .char '/' :: s.replaceAll "\\\\" "/" :=
    @Text.replaceAll_append_self "\\\\" (by decide) "/" s
  rw [slashed, hpair]
  rfl

theorem slashed_escape (hd : d ≠ .char '\\') (s : Text) :
    slashed (.char '\\' :: d :: s) = .char '/' :: d :: slashed s := by
  have hstart : ¬ Text.ofString "\\\\" <+: .char '\\' :: d :: s := by
    intro h
    exact hd (List.cons_prefix_cons.mp (List.cons_prefix_cons.mp h).2).1.symm
  rw [slashed, Text.replaceAll_cons hstart]
  exact congrArg (.char '/' :: ·) (slashed_plain hd s)

theorem backslash_not_mem_slashed (path : Text) : .char '\\' ∉ slashed path :=
  Text.not_mem_substitute (by decide)

theorem slashed_of_not_mem (h : .char '\\' ∉ s) : slashed s = s := by
  have hpairs : s.replaceAll "\\\\" "/" = s :=
    Text.replaceAll_of_not_mem (p := .char '\\') (by decide) h "/"
  rw [slashed, hpairs, Text.substitute_of_not_mem h]

/-- Slashes are all that a path with slashes has more than the path. -/
theorem mem_of_mem_slashed (hc : c ≠ .char '/') (h : c ∈ slashed s) : c ∈ s := by
  rcases Text.mem_substitute h with ⟨h, _⟩ | h
  · rcases Text.mem_replaceAll h with h | h
    · exact h
    · exact absurd (List.mem_singleton.mp h) hc
  · exact absurd h hc

/-- Quotes that are escaped are meant as they were. -/
theorem unescape_escapeQuotes (hs : .char '\\' ∉ s) :
    unescape (s.replaceAll "\"" "\\\"") = s := by
  induction s with
  | nil => rfl
  | cons c s ih =>
    rw [List.mem_cons, not_or] at hs
    rw [replaceAll_quote_cons]
    split
    · next hc => rw [unescape_quote, ih hs.2, hc]
    · rw [unescape_plain (Ne.symm hs.1), ih hs.2]

/-- **An escaped path means the path with slashes.** -/
theorem unescape_escape (path : Text) : unescape (Path.escape path) = slashed path :=
  unescape_escapeQuotes (backslash_not_mem_slashed path)

/-- Without quotes there is nothing to escape. -/
theorem escape_of_not_mem (h : .char '"' ∉ s) : Path.escape s = slashed s :=
  Text.replaceAll_of_not_mem (p := .char '"') (by decide)
    (fun hmem => h (mem_of_mem_slashed (by decide) hmem)) "\\\""

/-- Holds of a body with no escape but that of the backslash. -/
inductive IsPathBody : Text → Prop where
  | nil : IsPathBody []
  | plain {c : CodePoint} {r : Text} : c ≠ .char '"' → c ≠ .char '\\' → IsPathBody r →
      IsPathBody (c :: r)
  | backslash {r : Text} : IsPathBody r → IsPathBody (.char '\\' :: .char '\\' :: r)

/-- **Doubled backslashes become slashes** as the backslashes that they mean would. -/
theorem IsPathBody.slashed (h : IsPathBody s) :
    slashed s = (unescape s).substitute '\\' '/' := by
  induction h with
  | nil => rfl
  | @plain c r _ hc _ ih =>
    rw [slashed_plain hc, unescape_plain hc, ih]
    exact congrArg (· :: _) (if_neg hc).symm
  | backslash _ ih =>
    rw [slashed_pair, unescape_backslash, ih]
    rfl

end Database

end ClangDb
