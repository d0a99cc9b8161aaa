import ClangDb.Database.Pass
import ClangDb.Proofs.Database.Naming
import ClangDb.Proofs.Database.Schedule
import ClangDb.Proofs.ResponseFile.Words

/-! # The words of an inline command

    An inline command becomes its compiler, a reference to a response file and the
    source file.  The compiler and the reference stand in quotes; the source file
    does not.  So it is read as the words of its path, and it is read as the path
    exactly if nothing in it separates and the database writes it without other
    escapes than doubled backslashes.

    Key theorems:
    - `slashed_eq_iff`: when a path that is written means itself,
    - `readWords_slashed_eq_iff`: when it is one word,
    - `words_of_inline`: the words of the whole command.
-/

namespace ClangDb

namespace Database

open Json Arguments

variable {e v w x path tail indent pad line : Text} {dialect : Dialect} {o : Options}

/-! ### Paths and what writes them -/

/-- An escape by number stays, behind a slash. -/
theorem slashed_hex {a b c d : CodePoint} {n : Nat} (hn : hex? [a, b, c, d] = some n) (r : Text) :
    slashed (.char '\\' :: .char 'u' :: a :: b :: c :: d :: r) =
      .char '/' :: .char 'u' :: a :: b :: c :: d :: slashed r := by
  have hne : ∀ q ∈ [a, b, c, d], q ≠ .char '\\' :=
    fun q hq => (bounds_of_hex? (by rw [hn]; rfl) q hq).2.1
  rw [slashed_escape (by decide), slashed_plain (hne a (by simp)), slashed_plain (hne b (by simp)),
    slashed_plain (hne c (by simp)), slashed_plain (hne d (by simp))]

/-- Each escape but that of the backslash is longer than what it writes. -/
theorem length_slashed (h : Decodes e v) :
    v.length ≤ (slashed e).length ∧ ((slashed e).length ≤ v.length → IsPathBody e) := by
  induction h with
  | nil => exact ⟨Nat.le_refl _, fun _ => .nil⟩
  | plain hq hs _ _ ih =>
    rw [slashed_plain hs, List.length_cons, List.length_cons]
    exact ⟨by omega, fun h => .plain hq hs (ih.2 (by omega))⟩
  | @simple d c r v hd _ ih =>
    by_cases hbackslash : d = .char '\\'
    · subst hbackslash
      rw [slashed_pair, List.length_cons, List.length_cons]
      exact ⟨by omega, fun h => .backslash (ih.2 (by omega))⟩
    · rw [slashed_escape hbackslash]
      simp only [List.length_cons]
      exact ⟨by omega, fun h => by omega⟩
  | hex hn _ _ ih =>
    rw [slashed_hex hn]
    simp only [List.length_cons]
    exact ⟨by omega, fun h => by omega⟩
  | pair hn _ hm _ _ ih =>
    rw [slashed_hex hn, slashed_hex hm]
    simp only [List.length_cons]
    exact ⟨by omega, fun h => by omega⟩

/-- Without other escapes a path is read as it is meant. -/
theorem IsPathBody.value_eq (he : IsPathBody e) (h : Decodes e v) : v = unescape e := by
  induction he generalizing v with
  | nil =>
    cases h
    rfl
  | plain _ hc _ ih =>
    rw [unescape_plain hc]
    cases h with
    | plain _ _ _ h => rw [ih h]
    | simple => exact absurd rfl hc
    | hex => exact absurd rfl hc
    | pair => exact absurd rfl hc
  | @backslash r _ ih =>
    rw [unescape_backslash]
    generalize hx : CodePoint.char '\\' :: .char '\\' :: r = y at h
    cases h with
    | nil => cases hx
    | plain _ hc => exact absurd (List.cons.inj hx).1.symm hc
    | simple hd h =>
      obtain ⟨rfl, rfl⟩ := List.cons.inj (List.cons.inj hx).2
      rw [ih h, ← Option.some.inj hd]
    | hex => exact absurd (List.cons.inj (List.cons.inj hx).2).1 (by decide)
    | pair => exact absurd (List.cons.inj (List.cons.inj hx).2).1 (by decide)

/-- **A path that is written means itself exactly if there are no other escapes** than doubled
    backslashes. -/
theorem slashed_eq_iff (h : Decodes e v) :
    slashed e = v.substitute '\\' '/' ↔ IsPathBody e := by
  constructor
  · intro heq
    have hlen : (slashed e).length = v.length := by rw [heq, Text.substitute, List.length_map]
    exact (length_slashed h).2 (by omega)
  · intro he
    rw [he.slashed, he.value_eq h]

/-! ### Words -/

theorem literal_quote : Literal (.char '"') :=
  ⟨by decide, by decide, by decide, fun _ h => (Option.some.inj h).symm⟩

theorem literal_space : Literal (.char ' ') :=
  ⟨by decide, by decide, by decide, fun _ h => by cases h⟩

/-- A path that is written holds neither quotes nor controls if the path holds no quotes. -/
theorem clean_slashed (h : Decodes e v) (hv : .char '"' ∉ v) :
    .char '"' ∉ slashed e ∧ Clean (slashed e) := by
  constructor
  · intro hmem
    exact hv (h.mem_of_mem literal_quote (mem_of_mem_slashed (by decide) hmem))
  · intro c hc
    by_cases hslash : c = .char '/'
    · rw [hslash]
      decide
    · exact h.spelled.le_toNat c (mem_of_mem_slashed hslash hc)

theorem separates_of_clean {c : CodePoint} (hspace : c ≠ .char ' ') (hclean : 0x20 ≤ c.toNat) :
    separates c = false := by
  rw [separates, Bool.or_eq_false_iff, decide_eq_false_iff_not, decide_eq_false_iff_not]
  refine ⟨hspace, ?_⟩
  rintro rfl
  exact absurd hclean (by decide)

/-- A path without spaces is one word. -/
theorem readWords_slashed (h : Decodes e v) (hv : .char '"' ∉ v) (hspace : .char ' ' ∉ v)
    (hne : slashed e ≠ []) : readWords (slashed e) = [slashed e] := by
  obtain ⟨hquote, hclean⟩ := clean_slashed h hv
  refine readWords_bare hne hquote fun c hc => separates_of_clean ?_ (hclean c hc)
  rintro rfl
  exact hspace (h.mem_of_mem literal_space (mem_of_mem_slashed (by decide) hc))

/-- **A source file is read as its path exactly if it is not empty, nothing in it separates, and
    there are no other escapes than doubled backslashes.** -/
theorem readWords_slashed_eq_iff (h : Decodes e v) (hv : .char '"' ∉ v) :
    readWords (slashed e) = [v.substitute '\\' '/'] ↔
      v ≠ [] ∧ .char ' ' ∉ v ∧ IsPathBody e := by
  constructor
  · intro hread
    have hword := mem_wordsFrom (clean_slashed h hv).1 (fun w hw => by cases hw) _
      (show v.substitute '\\' '/' ∈ readWords (slashed e) by rw [hread]; exact List.mem_cons_self)
    have hspace : .char ' ' ∉ v := fun hmem =>
      absurd (hword.2 _ (Text.mem_substitute_of_ne (by decide) hmem _)) (by decide)
    have hne : slashed e ≠ [] := by
      intro hnil
      rw [hnil] at hread
      cases hread
    refine ⟨?_, hspace, ?_⟩
    · rintro rfl
      exact hword.1 rfl
    · -- without spaces the word read is the path as it is written
      rw [readWords_slashed h hv hspace hne] at hread
      exact (slashed_eq_iff h).mp (List.cons.inj hread).1
  · rintro ⟨hne, hspace, he⟩
    have heq := (slashed_eq_iff h).mpr he
    rw [← heq]
    refine readWords_slashed h hv hspace ?_
    rw [heq]
    exact fun hnil => hne (List.map_eq_nil_iff.mp hnil)

/-- A command whose compiler and response file stand in quotes. -/
def commandText (compiler path named : Text) : Text :=
  .char '"' :: (compiler ++ .char '"' :: .char ' ' :: .char '@' :: .char '"' ::
    (path ++ .char '"' :: .char ' ' :: named))

/-- The compiler and the response file are one word each. -/
theorem readWords_commandText (hw : .char '"' ∉ w) (hpath : .char '"' ∉ path) (named : Text) :
    readWords (commandText w path named) = w :: (.char '@' :: path) :: readWords named := by
  have hends : ∀ s : Text, EndsWord (.char ' ' :: s) := by
    intro s c r h
    obtain ⟨rfl, _⟩ := List.cons.inj h
    rfl
  have hcompiler := wordsFrom_quoted List.not_mem_nil (fun c hc => by cases hc) hw
    (hends (.char '@' :: .char '"' :: (path ++ .char '"' :: .char ' ' :: named)))
  have hfile := wordsFrom_quoted (show CodePoint.char '"' ∉ [.char '@'] by decide) (by decide) hpath
    (hends named)
  -- each space ends a word and begins none
  rw [readWords, commandText]
  refine hcompiler.trans (congrArg (w :: ·) ?_)
  rw [wordsFrom_separator rfl]
  refine hfile.trans (congrArg (_ :: ·) ?_)
  exact wordsFrom_separator rfl none named

/-! ### The text of a command -/

/-- Holds of a code point that stands in a string as it is. -/
def Bare (c : CodePoint) : Prop := c ≠ .char '"' ∧ c ≠ .char '\\' ∧ 0x20 ≤ c.toNat

instance : DecidablePred Bare := fun c =>
  inferInstanceAs (Decidable (c ≠ .char '"' ∧ c ≠ .char '\\' ∧ 0x20 ≤ c.toNat))

/-- What is written without quotes and backslashes is read as it is, and so are escaped quotes
    around it. -/
theorem decodes_commandText (hx : Decodes x w) (hpath : ∀ c ∈ path, Bare c) {named : Text}
    (hnamed : Decodes named named) :
    Decodes
      (escapedQuote ++ x ++ escapedQuote ++
        (" @\\\"" ++ path ++ escapedQuote ++ .char ' ' :: named))
      (commandText w path named) := by
  have hquote : ∀ {s t : Text}, Decodes s t →
      Decodes (.char '\\' :: .char '"' :: s) (.char '"' :: t) := .simple rfl
  have hplain : ∀ {s t : Text} (c : Char), c ≠ '"' ∧ c ≠ '\\' ∧ ' ' ≤ c → Decodes s t →
      Decodes (.char c :: s) (.char c :: t) := by
    rintro s t c ⟨hq, hb, hc⟩ h
    exact .plain (fun h => hq (CodePoint.char.inj h)) (fun h => hb (CodePoint.char.inj h)) hc h
  -- behind the compiler and behind the path there is an escaped quote, and no half of a pair
  have hbehind := (decodes_self hpath).append (hquote (hplain ' ' (by decide) hnamed))
    (not_startsLow_escape (by decide))
  have hreference := hplain ' ' (by decide) (hplain '@' (by decide) (hquote hbehind))
  have hwhole := hquote (hx.append (hquote hreference) (not_startsLow_escape (by decide)))
  simpa [commandText, escapedQuote, Text.ofString] using hwhole

theorem compilerEnd_concat (dialect : Dialect) :
    ∃ front, dialect.compilerEnd = front ++ [.char '"'] ∧ .char '"' ∉ front := by
  cases dialect with
  | clang => exact ⟨"clang++\\", rfl, by decide⟩
  | msvc => exact ⟨".exe\\", rfl, by decide⟩

/-- The compiler of a command that begins with it in quotes. -/
theorem ofLine?_quotedCompiler (hx : .char '"' ∉ x)
    (hend : (x ++ escapedQuote).endsWith dialect.compilerEnd = true)
    (hindent : ∀ c ∈ indent, c.isBlank = true) (hpad : ∀ c ∈ pad, c.isBlank = true)
    (tail : Text) :
    Command.ofLine? dialect (indent ++ (commandKey ++ (pad ++
        .char '"' :: (escapedQuote ++ x ++ escapedQuote ++ tail)))) =
      some ⟨indent, .char '"' :: (escapedQuote ++ x ++ escapedQuote), tail⟩ := by
  obtain ⟨x', hx'⟩ := List.isSuffixOf_iff_suffix.mp hend
  obtain ⟨front, hfront, hquote⟩ := compilerEnd_concat dialect
  obtain ⟨c, rest, hcons, _, hc⟩ := compilerEnd_cons dialect
  have hparts : x' ++ front = x ++ [.char '\\'] := by
    have hconcat : (x' ++ front) ++ [.char '"'] = (x ++ [.char '\\']) ++ [.char '"'] := by
      rw [List.append_assoc, ← hfront, hx', List.append_assoc]
      rfl
    exact List.append_cancel_right hconcat
  have hfirst : .char '"' ∉ x' := by
    intro hmem
    have hmem' : .char '"' ∈ x ++ [.char '\\'] := hparts ▸ List.mem_append_left front hmem
    rcases List.mem_append.mp hmem' with h | h
    · exact hx h
    · exact absurd h (by decide)
  -- the search passes over the opening quote, and then it ends at the next one
  have hcut : Text.cut? dialect.compilerEnd (escapedQuote ++ x ++ escapedQuote ++ tail) =
      some (escapedQuote ++ x', tail) := by
    have hsplit : escapedQuote ++ x ++ escapedQuote ++ tail =
        escapedQuote ++ (x' ++ (front ++ .char '"' :: tail)) := by
      have hbody : x' ++ (front ++ [.char '"']) = x ++ escapedQuote := by
        rw [← hfront, hx']
      rw [List.append_cons front, ← List.append_assoc x', hbody]
      simp [escapedQuote]
    have hover : Text.cut? (c :: rest) _ = _ :=
      Text.cut?_append_of_not_mem hc (x' ++ (front ++ .char '"' :: tail))
    rw [← hcons, hfront, Text.cut?_append_concat hquote hfirst] at hover
    rw [hsplit, hfront, hover]
    rfl
  have hcommand := ofLine?_quote (cut?_commandKey hindent _) hpad hcut
  rw [hcommand, List.append_assoc (escapedQuote), hx', List.append_assoc]

/-- What an inline command becomes. -/
theorem redirectCommand_inline {c : Command} (hc : Command.ofLine? o.dialect line = some c)
    (htail : c.tail.contains reference = false) :
    redirectCommand o e line = .redirected
      (c.lead (o.inlineJob e c.tail).path ++ " " ++ Path.escape e ++ "\",")
      (o.inlineJob e c.tail) := by
  have hcut : Text.cut? reference c.tail = none := by
    rw [Text.contains, Option.isSome_eq_false_iff, Option.isNone_iff_eq_none] at htail
    exact htail
  simp only [redirectCommand, hc, hcut]
  rfl

/-! ### The line of a file and the line of its command -/

/-- The folder for response files is written with slashes, so all of it stands in a string as it
    is. -/
theorem bare_outputDir {r : Request} (hdir : ∀ c ∈ r.outputDir, c ≠ .char '"' ∧ 0x20 ≤ c.toNat) :
    ∀ c ∈ r.options.outputDir, Bare c := by
  have hslash : Bare (.char '/') := by decide
  have hnormal : ∀ c ∈ Path.normalize r.outputDir, Bare c := by
    intro c hc
    rcases Text.mem_substitute (mem_of_mem_collapse hc) with ⟨hc, hne⟩ | rfl
    · exact ⟨(hdir c hc).1, hne, (hdir c hc).2⟩
    · exact hslash
  show ∀ c ∈ Path.withoutTrailing (Path.normalize r.outputDir), Bare c
  unfold Path.withoutTrailing
  split
  · exact fun c hc => List.mem_singleton.mp hc ▸ hslash
  · exact fun c hc => hnormal c (Text.mem_of_mem_trimRight hc)

theorem bare_inlinePath (hdir : ∀ c ∈ o.outputDir, Bare c) (he : Clean e) (tail : Text) :
    ∀ c ∈ (o.inlineJob e tail).path, Bare c := by
  refine forall_mem_append (forall_mem_append hdir (by decide)) fun c hc => ⟨?_, ?_, ?_⟩
  · rintro rfl
    exact not_mem_flatName_of_isDropped (by decide) e hc
  · rintro rfl
    exact noBackslash_flatName e hc
  · exact graphic_clean.flatName he c hc

theorem escape_of_bare (h : ∀ c ∈ path, Bare c) : Path.escape path = path := by
  rw [escape_of_not_mem fun hmem => (h _ hmem).1 rfl,
    slashed_of_not_mem fun hmem => (h _ hmem).2.1 rfl]

/-- A line that names a file, and behind it its command. -/
theorem scanLines_pair {s : State} {nameLine raw line' ending : Text} {job : Job}
    (hname : fileOn? nameLine = some e) (hraw : Text.splitEnding raw = (line, ending))
    (hcommand : isCommand raw = true) (h : redirectCommand o e line = .redirected line' job) :
    (scanLines o s [nameLine, raw]).lines = [nameLine, line' ++ ending] ∧
      (scanLines o s [nameLine, raw]).jobs = if o.skips e then [] else [job] := by
  have hstate : nextState s nameLine = ⟨.command, e⟩ := by
    rw [nextState, isCommand_of_fileOn? hname, hname]
    rfl
  have hscan : scanLine o s nameLine = ⟨nameLine, none, ⟨.command, e⟩, []⟩ := by
    rw [scanLine_of_not_command (isCommand_of_fileOn? hname), hstate]
  have hredirect := redirect?_of_command (o := o) (s := ⟨.command, e⟩) hcommand rfl
  rw [hraw, h] at hredirect
  obtain ⟨hline, _, hjob⟩ := scanLine_of_redirect? hredirect
  rw [hraw] at hline
  simp only [scanLines, hscan, hline, hjob, true_and]
  split
  · rfl
  · rfl

/-- **The words of a redirected inline command** are its compiler, the reference to its response
    file, and the words of the source file as it stands in the database with slashes.  They are the
    compiler, the reference and the source file exactly if the path of the file is not empty, holds
    no space and is written with no escapes but doubled backslashes. -/
theorem words_of_inline {r : Request} {s : State} {nameLine raw ending : Text}
    (hname : fileOn? nameLine = some e) (he : Writes e v) (hv : .char '"' ∉ v)
    (hdir : ∀ c ∈ r.outputDir, c ≠ .char '"' ∧ 0x20 ≤ c.toNat)
    (hraw : Text.splitEnding raw = (indent ++ (commandKey ++ (pad ++ .char '"' ::
      (escapedQuote ++ x ++ escapedQuote ++ tail))), ending))
    (hindent : ∀ c ∈ indent, c.isBlank = true) (hpad : ∀ c ∈ pad, c.isBlank = true)
    (hx : Writes x w) (hw : .char '"' ∉ w)
    (hend : (x ++ escapedQuote).endsWith r.dialect.compilerEnd = true)
    (htail : tail.contains reference = false) :
    ∃ body text,
      (scanLines r.options s [nameLine, raw]).lines =
        [nameLine, indent ++ (commandKey ++ .char ' ' :: quoted body (.char ',' :: ending))] ∧
      (scanLines r.options s [nameLine, raw]).jobs =
        (if r.options.skips e then [] else [r.options.inlineJob e tail]) ∧
      Writes body text ∧
      readWords text =
        w :: (.char '@' :: (r.options.inlineJob e tail).path) :: readWords (Path.escape e) ∧
      (readWords text =
          [w, .char '@' :: (r.options.inlineJob e tail).path, v.substitute '\\' '/'] ↔
        v ≠ [] ∧ .char ' ' ∉ v ∧ IsPathBody e) := by
  rw [writes_iff_decodes] at he hx
  obtain ⟨hquote, hclean⟩ := clean_slashed he hv
  have hpath := bare_inlinePath (bare_outputDir hdir) he.spelled.le_toNat tail
  have hsource : Path.escape e = slashed e :=
    escape_of_not_mem fun hmem => hv (he.mem_of_mem literal_quote hmem)
  -- what the line becomes
  have hc := ofLine?_quotedCompiler (fun hmem => hw (hx.mem_of_mem literal_quote hmem)) hend
    hindent hpad tail
  have hcommand : isCommand raw = true := by
    rw [isCommand, hraw, Text.contains_iff_infix]
    exact ⟨indent, _, List.append_assoc indent commandKey _⟩
  have hredirected := redirectCommand_inline (o := r.options) (e := e) hc htail
  obtain ⟨hlines, hjobs⟩ := scanLines_pair (s := s) hname hraw hcommand hredirected
  -- what it means
  have hnamed : Decodes (slashed e) (slashed e) := decodes_self fun c hc =>
    ⟨fun h => hquote (h ▸ hc), fun h => backslash_not_mem_slashed e (h ▸ hc), hclean c hc⟩
  have hbody := decodes_commandText hx hpath hnamed
  have hwords := readWords_commandText hw (fun hmem => (hpath _ hmem).1 rfl) (slashed e)
  refine ⟨_, _, ?_, hjobs, writes_iff_decodes.mpr hbody, hsource ▸ hwords, ?_⟩
  · rw [hlines]
    simp [Command.lead, escape_of_bare hpath, hsource, escapedQuote, Text.ofString]
  · rw [hwords, ← readWords_slashed_eq_iff he hv]
    simp

/-- A pass that writes response files into a folder with a space in its name. -/
def spacedRequest : Request := ⟨"db.json", "o p", "/e", false, .clang, false⟩

/-- The line of a source file with a space in its path. -/
def spacedName : Text := "\"file\": \"/a b.c\",\n"

/-- The line of its command. -/
def spacedCommand : Text := "\"command\": \"\\\"clang++\\\" -c\",\n"

theorem words_of_inline_spaced :
    ∃ body text,
      (scanLines spacedRequest.options .initial [spacedName, spacedCommand]).lines =
        [spacedName, commandKey ++ .char ' ' :: quoted body ",\n"] ∧
      Writes body text ∧
      readWords text = [Text.ofString "clang++", Text.ofString "@o p/_a b.c.rsp", Text.ofString "/a",
        Text.ofString "b.c"] ∧
      readWords text ≠ [Text.ofString "clang++", Text.ofString "@o p/_a b.c.rsp",
        Text.ofString "/a b.c"] := by
  have hname : fileOn? spacedName = some (Text.ofString "/a b.c") := by decide +kernel
  have hfile : Writes "/a b.c" "/a b.c" := writes_iff_decodes.mpr (decodes_self (by decide))
  have hcompiler : Writes "clang++" "clang++" := writes_iff_decodes.mpr (decodes_self (by decide))
  have hraw : Text.splitEnding spacedCommand = ([] ++ (commandKey ++ ([.char ' '] ++ .char '"' ::
      (escapedQuote ++ Text.ofString "clang++" ++ escapedQuote ++ Text.ofString " -c\","))),
        Text.ofString "\n") := by
    decide +kernel
  obtain ⟨body, text, hlines, _, hbody, hwords, _⟩ :=
    words_of_inline (r := spacedRequest) (s := .initial) hname hfile (by decide) (by decide) hraw
      (by decide) (by decide) hcompiler (by decide) (by decide) (by decide)
  have hpath : (spacedRequest.options.inlineJob "/a b.c" " -c\",").path =
      Text.ofString "o p/_a b.c.rsp" := by
    decide +kernel
  have hsource : readWords (Path.escape "/a b.c") = [Text.ofString "/a", Text.ofString "b.c"] := by
    decide +kernel
  rw [hpath, hsource] at hwords
  refine ⟨body, text, hlines, hbody, hwords, ?_⟩
  rw [hwords]
  decide

end Database

end ClangDb
