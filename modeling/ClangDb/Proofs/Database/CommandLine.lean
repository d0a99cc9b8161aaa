import ClangDb.Proofs.Database.Recast
import ClangDb.Proofs.Database.Redirect

/-! # Command lines as rewrites

    If a line holds the whole text of a command, with the compiler in it, then to
    redirect the line is to rewrite that text: what stood before it stays, and
    what stood behind it makes way for a comma.  The new text is one that JSON
    can read, because the compiler ends in an escaped quote, at which the old text
    may be cut, and the paths behind it are escaped.

    Key theorems:
    - `spelled_escape`: escaped paths can be read,
    - `clean_of_fileValue?`: the name of a file holds no control,
    - `exists_rewrite`: a redirected line is rewritten.
-/

namespace ClangDb

namespace Database

open Json

/-- What stands behind the command on a line that holds the whole of it: the key, which does
    not end another string, and a text with the compiler in it. -/
def afterCommand? (dialect : Dialect) (line : Text) : Option Text := do
  let (indent, value) ← Text.cut? commandKey line
  if indent.getLast? = some (.char '\\') then none
  else match value.dropWhile isPadding with
    | .char '"' :: r =>
      let (body, rest) ← literalBody? r
      if body.contains dialect.compilerEnd then some rest else none
    | _ => none

variable {line : Text}

/-- The parts of such a line. -/
theorem afterCommand?_spec {dialect : Dialect} {rest : Text}
    (h : afterCommand? dialect line = some rest) :
    ∃ indent pad body, Text.cut? commandKey line = some (indent, pad ++ quoted body rest) ∧
      indent.getLast? ≠ some (.char '\\') ∧ (∀ c ∈ pad, isPadding c = true) ∧ IsBody body ∧
      dialect.compilerEnd <:+: body := by
  simp only [afterCommand?, bind, Option.bind_eq_some_iff] at h
  obtain ⟨⟨indent, value⟩, hkey, h⟩ := h
  have hvalue := List.takeWhile_append_dropWhile (p := isPadding) (l := value)
  have hpad : ∀ c ∈ value.takeWhile isPadding, isPadding c = true :=
    fun c hc => List.mem_takeWhile_imp hc
  simp only at h
  split at h
  · cases h
  · next hindent =>
    split at h
    · next r hdrop =>
      simp only [Option.bind_eq_some_iff] at h
      obtain ⟨⟨body, rest'⟩, hliteral, h⟩ := h
      simp only at h
      split at h
      · next hcompiler =>
        obtain rfl := Option.some.inj h
        obtain ⟨hbody, rfl⟩ := literalBody?_eq_some_iff.mp hliteral
        refine ⟨indent, value.takeWhile isPadding, body, ?_, hindent, hpad, hbody,
          Text.contains_iff_infix.mp hcompiler⟩
        rw [hkey, quoted, ← hdrop, hvalue]
      · cases h
    · cases h

/-! ### Controls -/

/-- Holds of a text without controls. -/
def Clean (s : Text) : Prop := ∀ c ∈ s, 0x20 ≤ c.toNat

theorem graphic_clean : Graphic fun c => 0x20 ≤ c.toNat := fun _ hd => hd

variable {a b s t : Text}

theorem Clean.mono (h : Clean s) (hts : ∀ c ∈ t, c ∈ s) : Clean t := fun c hc => h c (hts c hc)

theorem ne_quote_of_isPadding {c : CodePoint} (h : isPadding c = true) : c ≠ .char '"' := by
  rintro rfl
  exact absurd h (by decide)

/-- The name of a file that stands among pieces holds no control. -/
theorem clean_of_fileValue? {file : Text} (hp : Pieces line) (h : fileValue? line = some file) :
    Clean file := by
  obtain ⟨before, pad, rest, hline, hbody, hpad⟩ := eq_of_fileValue? h
  have hkey : line = (before ++ ("\"file" : String)) ++
      .char '"' :: (.char ':' :: (pad ++ quoted file rest)) := by
    rw [hline, List.append_assoc]
    rfl
  have hlast : (before ++ Text.ofString "\"file").getLast? = some (.char 'e') := by
    rw [List.getLast?_append]
    rfl
  -- the second quote of the key closes a string
  rcases hp.quote_cases hkey with ⟨hopen, _⟩ | ⟨hclose, _⟩ | ⟨hescaped, _⟩
  · rcases hopen.quote_cases (rfl : _ = before ++ .char '"' :: Text.ofString "file") with
      ⟨_, hstring⟩ | ⟨_, hdelimits⟩ | ⟨_, hquote⟩
    · generalize hx : CodePoint.char '"' :: Text.ofString "file" = x at hstring
      cases hstring with
      | nil => cases hx
      | plain hc _ => exact absurd (List.cons.inj hx).1.symm hc
      | @string body s _ _ _ =>
        have hmem : CodePoint.char '"' ∈ Text.ofString "file" := by
          rw [(List.cons.inj hx).2]
          simp
        exact absurd hmem (by decide)
    · exact absurd (hdelimits _ rfl) (by decide)
    · exact absurd hquote (by decide)
  · have hvalue := hclose.of_append (a := [.char ':']) (by decide)
    have hstring := hvalue.of_append fun c hc => ne_quote_of_isPadding (hpad c hc)
    exact (hstring.quoted_inv hbody).1.le_toNat
  · rw [hlast] at hescaped
    exact absurd (Option.some.inj hescaped) (by decide)

/-! ### Escaped paths -/

theorem replaceAll_quote_cons (c : CodePoint) (s : Text) :
    Text.replaceAll (c :: s) "\"" "\\\"" =
      if c = .char '"' then .char '\\' :: .char '"' :: Text.replaceAll s "\"" "\\\""
      else c :: Text.replaceAll s "\"" "\\\"" := by
  have hquote : (("\"" : String) : Text).isPrefixOf (c :: s) = (CodePoint.char '"' == c) := by
    show (CodePoint.char '"' == c && List.isPrefixOf [] s) = _
    rw [List.isPrefixOf_nil_left, Bool.and_true]
  rw [Text.replaceAll, Text.replaceFrom, hquote]
  by_cases hc : c = .char '"'
  · rw [hc, if_pos rfl, if_pos (by decide)]
    rfl
  · rw [if_neg hc, if_neg (by simpa using Ne.symm hc)]
    rfl

/-- Escaping the quotes of a text without backslashes. -/
theorem escapeQuotes_spec (h : ∀ c ∈ s, c ≠ .char '\\') :
    IsBody (s.replaceAll "\"" "\\\"") ∧ (Clean s → Spelled (s.replaceAll "\"" "\\\"")) := by
  induction s with
  | nil => exact ⟨.nil, fun _ => .nil⟩
  | cons c s ih =>
    obtain ⟨hc, hs⟩ := List.forall_mem_cons.mp h
    obtain ⟨hbody, hspelled⟩ := ih hs
    rw [replaceAll_quote_cons]
    split
    · refine ⟨.escape hbody, fun hclean => .simple rfl (hspelled ?_)⟩
      exact (List.forall_mem_cons.mp hclean).2
    · next hq =>
      refine ⟨.plain hq hc hbody, fun hclean => ?_⟩
      obtain ⟨hcontrol, hclean⟩ := List.forall_mem_cons.mp hclean
      exact .plain hq hc hcontrol (hspelled hclean)

/-- An escaped path holds the controls of the path. -/
theorem clean_of_escape {path : Text} (h : Clean (Path.escape path)) : Clean path := by
  intro c hc
  apply Nat.le_of_not_lt
  intro hlow
  have hne : ∀ d : Char, ' ' ≤ d → c ≠ .char d := by
    rintro d hd rfl
    exact absurd (graphic_clean d hd) (by simpa using hlow)
  have hslash : c ∉ Text.ofString "\\\\" := by
    simpa [Text.ofString] using hne '\\' (by decide)
  have hquote : c ∉ Text.ofString "\"" := by
    simpa [Text.ofString] using hne '"' (by decide)
  have hmem : c ∈ Path.escape path :=
    Text.mem_replaceAll_of_not_mem (by decide) hquote
      (Text.mem_substitute_of_ne (hne '\\' (by decide))
        (Text.mem_replaceAll_of_not_mem (by decide) hslash hc _) _) _
  have := h c hmem
  omega

/-- **An escaped path can be read**, if the path holds no control. -/
theorem spelled_escape (path : Text) :
    IsBody (Path.escape path) ∧ (Clean path → Spelled (Path.escape path)) := by
  have hback : ∀ c ∈ (path.replaceAll "\\\\" "/").substitute '\\' '/', c ≠ .char '\\' := by
    rintro c hc rfl
    exact Text.not_mem_substitute (by decide) hc
  obtain ⟨hbody, hspelled⟩ := escapeQuotes_spec hback
  refine ⟨hbody, fun hclean => hspelled ?_⟩
  have hslash : ∀ d ∈ (("/" : String) : Text), 0x20 ≤ d.toNat := graphic_clean.ofString (by decide)
  exact forall_mem_substitute (forall_mem_replaceAll _ hclean hslash)
    (graphic_clean '/' (by decide))

/-! ### The compiler -/

/-- The end of a compiler is an escaped quote behind a letter or a plus sign. -/
theorem compilerEnd_eq (dialect : Dialect) :
    ∃ front e, dialect.compilerEnd = front ++ [e, .char '\\', .char '"'] ∧ e ≠ .char '\\' := by
  cases dialect with
  | clang => exact ⟨Text.ofString "clang+", .char '+', rfl, by decide⟩
  | msvc => exact ⟨Text.ofString ".ex", .char 'e', rfl, by decide⟩

/-- The end of a compiler does not begin with a blank, a quote or a backslash. -/
theorem compilerEnd_cons (dialect : Dialect) :
    ∃ c x, dialect.compilerEnd = c :: x ∧ c.isBlank = false ∧ c ∉ escapedQuote := by
  cases dialect with
  | clang => exact ⟨.char 'c', "lang++\\\"", rfl, by decide, by decide⟩
  | msvc => exact ⟨.char '.', "exe\\\"", rfl, by decide, by decide⟩

/-- Blanks and a quote before a text do not hide the first compiler in it. -/
theorem cut?_compilerEnd_append (dialect : Dialect) {pad : Text}
    (hpad : ∀ c ∈ pad, c.isBlank = true) (s : Text) :
    Text.cut? dialect.compilerEnd (pad ++ .char '"' :: s) =
      (Text.cut? dialect.compilerEnd s).map fun (before, after) =>
        (pad ++ .char '"' :: before, after) := by
  obtain ⟨c, x, hend, hblank, hquote⟩ := compilerEnd_cons dialect
  have hmem : c ∉ pad ++ [.char '"'] := by
    intro hc
    rcases List.mem_append.mp hc with hc | hc
    · rw [hpad c hc] at hblank
      cases hblank
    · exact hquote (List.mem_cons_of_mem _ hc)
  rw [hend, List.append_cons, Text.cut?_append_of_not_mem hmem]
  simp

theorem isBlank_of_isPadding {c : CodePoint} (h : isPadding c = true) : c.isBlank = true := by
  simp only [isPadding, Bool.or_eq_true, decide_eq_true_eq] at h
  rcases h with rfl | rfl <;> decide

theorem isSpace_of_isPadding {c : CodePoint} (h : isPadding c = true) : isSpace c = true := by
  simp only [isPadding, Bool.or_eq_true, decide_eq_true_eq] at h
  rcases h with rfl | rfl <;> decide

/-- The compiler of a command is its text up to and including the compiler, from the quote
    on. -/
theorem trim_compiler (dialect : Dialect) {pad : Text} (hpad : ∀ c ∈ pad, c.isBlank = true)
    (front : Text) :
    Text.trim ((pad ++ .char '"' :: front) ++ dialect.compilerEnd) =
      .char '"' :: (front ++ dialect.compilerEnd) := by
  obtain ⟨x, e, hend, _⟩ := compilerEnd_eq dialect
  have hdrop : ((pad ++ .char '"' :: front) ++ dialect.compilerEnd).dropWhile CodePoint.isBlank =
      .char '"' :: (front ++ dialect.compilerEnd) := by
    rw [List.append_assoc, List.dropWhile_append_of_pos hpad, List.cons_append,
      List.dropWhile_cons_of_neg (by decide)]
  rw [Text.trim, Text.trimBoth, hdrop, hend]
  have := @Text.trimRight_concat CodePoint.isBlank
    (.char '"' :: (front ++ (x ++ [e, .char '\\']))) (.char '"') (by decide)
  simpa using this

/-- The compiler that is found behind the opening quote of a text is that of the command. -/
theorem ofLine?_quote {dialect : Dialect} {line indent pad s front back : Text}
    (hkey : Text.cut? commandKey line = some (indent, pad ++ .char '"' :: s))
    (hpad : ∀ c ∈ pad, c.isBlank = true)
    (hcut : Text.cut? dialect.compilerEnd s = some (front, back)) :
    Command.ofLine? dialect line =
      some ⟨indent, .char '"' :: (front ++ dialect.compilerEnd), back⟩ := by
  have hvalue := cut?_compilerEnd_append dialect hpad s
  rw [hcut] at hvalue
  simp only [Command.ofLine?, hkey, Option.bind_eq_bind, Option.bind_some]
  rw [hvalue]
  simp only [Option.map_some, Option.bind_some, trim_compiler dialect hpad front]
  rfl

/-- The text of a command can be read up to and including its compiler. -/
theorem spelled_compiler {dialect : Dialect} {front back : Text}
    (h : Spelled (front ++ (dialect.compilerEnd ++ back))) :
    Spelled (front ++ dialect.compilerEnd) := by
  obtain ⟨x, e, hend, he⟩ := compilerEnd_eq dialect
  -- cut before the escaped quote, and put the quote back
  have htake : Spelled ((front ++ x) ++ [e]) := by
    refine h.take_escapedQuote (b := back) ?_ he
    rw [hend]
    simp
  have hquote : Spelled [.char '\\', .char '"'] := .simple rfl .nil
  have := htake.append hquote
  rw [hend]
  simpa using this

/-! ### Rewrites -/

/-- A command line whose key begins a string is made of pieces around the text. -/
theorem pieces_commandLine {indent pad body rest : Text}
    (h : Pieces (indent ++ (commandKey ++ (pad ++ quoted body rest))))
    (hindent : indent.getLast? ≠ some (.char '\\')) (hpad : ∀ c ∈ pad, isPadding c = true)
    (hbody : IsBody body) : Pieces indent ∧ Spelled body ∧ Pieces rest := by
  have hkey : indent ++ (commandKey ++ (pad ++ quoted body rest)) = indent ++
      .char '"' :: (commandName ++ .char '"' :: .char ':' :: (pad ++ quoted body rest)) := rfl
  rcases h.quote_cases hkey with ⟨hp, hstring⟩ | ⟨_, hdelimits⟩ | ⟨hescaped, _⟩
  · obtain ⟨_, hrest⟩ := hstring.quoted_inv writes_commandName.1.isBody
    have hpadded := hrest.of_append (a := [.char ':']) (by decide)
    have hvalue := hpadded.of_append fun c hc => ne_quote_of_isPadding (hpad c hc)
    exact ⟨hp, hvalue.quoted_inv hbody⟩
  · exact absurd (hdelimits _ rfl) (by decide)
  · exact absurd hescaped hindent

/-- A reference to a response file can be read. -/
theorem spelled_reference (path : Text) :
    IsBody (" @\\\"" ++ Path.escape path ++ "\\\"") ∧
      (Clean path → Spelled (" @\\\"" ++ Path.escape path ++ "\\\"")) := by
  obtain ⟨hbody, hspelled⟩ := spelled_escape path
  have hopen : Spelled (Text.ofString " @\\\"") :=
    .plain (by decide) (by decide) (by decide) <|
      .plain (by decide) (by decide) (by decide) (.simple rfl .nil)
  have hclose : Spelled (Text.ofString "\\\"") := .simple rfl .nil
  exact ⟨(hopen.isBody.append hbody).append hclose.isBody,
    fun hclean => (hopen.append (hspelled hclean)).append hclose⟩

/-- What comes before a quote ends before the last one. -/
theorem subset_of_last_quote {x y : Text} (h : a ++ .char '"' :: b = x ++ .char '"' :: y)
    (hy : .char '"' ∉ y) : ∀ c ∈ a, c ∈ x := by
  intro c hc
  rcases List.append_eq_append_iff.mp h with ⟨e, rfl, _⟩ | ⟨e, rfl, he⟩
  · exact List.mem_append_left _ hc
  · cases e with
    | nil => simpa using hc
    | cons d e =>
      obtain ⟨_, rfl⟩ := List.cons.inj he
      exact absurd (by simp) hy

/-- The response file that a command refers to is named inside the command, unless strings
    follow on the line. -/
theorem clean_referenced {back rest before after referenced last : Text}
    (hcut : Text.cut? reference (back ++ .char '"' :: rest) = some (before, after))
    (hquote : Text.cut? escapedQuote after = some (referenced, last)) (hback : Clean back)
    (hlight : Light rest) : Clean referenced := by
  -- the quote that ends the name is the last one on the line at the latest
  have hparts : (before ++ (reference ++ (referenced ++ [.char '\\']))) ++ .char '"' :: last =
      back ++ .char '"' :: rest := by
    rw [Text.eq_of_cut? hcut, Text.eq_of_cut? hquote]
    simp [escapedQuote, Text.ofString]
  have hsub := subset_of_last_quote hparts hlight.1
  exact hback.mono fun c hc => hsub c (by simp [hc])

/-- Whether a command line is given a response file that is made for its arguments. -/
def isInline (dialect : Dialect) (line : Text) : Bool :=
  match Command.ofLine? dialect line with
  | some c => !c.tail.contains reference
  | none => false

/-- What a redirected command holds behind its compiler. -/
theorem exists_argument {o : Options} {file line line' back rest : Text} {job : Job} {c : Command}
    (h : redirectCommand o file line = .redirected line' job)
    (hc : Command.ofLine? o.dialect line = some c) (htail : c.tail = back ++ .char '"' :: rest)
    (hback : Clean back) (hfile : Clean file) :
    ∃ argument, line' = c.indent ++ (commandKey ++ .char ' ' ::
        (c.compiler ++ (argument ++ [.char '"', .char ',']))) ∧
      IsBody argument ∧ (Light rest →
        (Spelled argument ↔ (isInline o.dialect line = true → Clean o.outputDir))) := by
  have hblank : Spelled (Text.ofString " ") := .plain (by decide) (by decide) (by decide) .nil
  have hslash : Clean (Text.ofString "/") := graphic_clean.ofString (by decide)
  obtain ⟨c', hc', _, hkind⟩ := redirectCommand_spec h
  obtain rfl := Option.some.inj (hc'.symm.trans hc)
  obtain ⟨hbody, hspelled⟩ := spelled_reference job.path
  rcases hkind with ⟨before, after, referenced, last, hcut, hquote, hpath, rfl⟩ |
    ⟨hcut, hpath, rfl⟩
  · -- a copy of the response file that the command refers to
    have hinline : isInline o.dialect line = false := by
      simp [isInline, hc, Text.contains, hcut]
    refine ⟨_, ?_, hbody, fun hlight => ⟨fun _ h => ?_, fun _ => hspelled ?_⟩⟩
    · simp [Command.lead, Text.ofString]
    · rw [hinline] at h
      cases h
    · rw [htail] at hcut
      rw [hpath]
      exact graphic_clean.copyName
        (graphic_clean.normalize (clean_referenced hcut hquote hback hlight)) o.dialect
  · -- a response file in the output folder
    have hinline : isInline o.dialect line = true := by
      simp [isInline, hc, Text.contains, hcut]
    obtain ⟨hbody', hspelled'⟩ := spelled_escape file
    refine ⟨(" @\\\"" ++ Path.escape job.path ++ "\\\"") ++ (Text.ofString " " ++ Path.escape file),
      ?_, hbody.append (hblank.isBody.append hbody'), fun _ => ⟨fun h _ => ?_, fun hdir => ?_⟩⟩
    · simp [Command.lead, Text.ofString]
    · -- the output folder stands in the path as it is
      have hargument : Clean _ := h.le_toNat
      have hpath' : Clean job.path := clean_of_escape (hargument.mono fun d hd => by simp [hd])
      exact hpath'.mono fun d hd => by simp [hpath, hd]
    · have hclean : Clean job.path := by
        rw [hpath]
        exact forall_mem_append (forall_mem_append (hdir hinline) hslash)
          (graphic_clean.flatName hfile)
      exact (hspelled hclean).append (hblank.append (hspelled' hfile))

/-- **A redirected line that holds the whole of its command is rewritten**: it keeps what
    stands before the command, and what stands behind it is dropped. -/
theorem exists_rewrite {o : Options} {file line line' rest : Text} {job : Job}
    (h : redirectCommand o file line = .redirected line' job)
    (hafter : afterCommand? o.dialect line = some rest) (hp : Pieces line)
    (hfile : Clean file) :
    ∃ (w : Rewrite) (indent : Text), w.drop = rest ∧ Pieces indent ∧
      line = indent ++ w.before [] ∧ line' = indent ++ w.after [] ∧
      (Light rest → (Spelled w.body' ↔ (isInline o.dialect line = true → Clean o.outputDir))) := by
  obtain ⟨indent, pad, body, hkey, hindent, hpad, hbody, hcompiler⟩ := afterCommand?_spec hafter
  obtain ⟨⟨front, back⟩, hcut⟩ :=
    Option.isSome_iff_exists.mp (Text.contains_iff_infix.mpr hcompiler)
  obtain rfl := Text.eq_of_cut? hcut
  have hc := ofLine?_quote hkey (fun d hd => isBlank_of_isPadding (hpad d hd))
    (Text.cut?_append hcut (.char '"' :: rest))
  have hline := Text.eq_of_cut? hkey
  obtain ⟨hpindent, hspelled, hprest⟩ := pieces_commandLine (hline ▸ hp) hindent hpad hbody
  have hprefix := spelled_compiler hspelled
  have hback : Clean back := fun d hd => hspelled.le_toNat d (by simp [hd])
  obtain ⟨argument, rfl, hargument, hargument'⟩ :=
    exists_argument h hc rfl hback hfile
  -- what is known of the two texts makes a rewrite
  let w : Rewrite := {
    pad := pad
    body := front ++ (o.dialect.compilerEnd ++ back)
    drop := rest
    body' := (front ++ o.dialect.compilerEnd) ++ argument
    isBlank := fun d hd => isSpace_of_isPadding (hpad d hd)
    spelled := hspelled
    pieces := hprest
    isBody := hprefix.isBody.append hargument }
  refine ⟨w, indent, rfl, hpindent, ?_, ?_, fun hlight => ?_⟩
  · rw [hline]
    simp [w, Rewrite.before]
  · simp [w, Rewrite.after, quoted]
  · rw [← hargument' hlight]
    exact hprefix.append_iff

end Database

end ClangDb
