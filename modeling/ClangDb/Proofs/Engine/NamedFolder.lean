import ClangDb.Proofs.Engine.Version
import ClangDb.Proofs.Number.Fraction
import ClangDb.Tool.Command

/-! # Folders named after a version

    An engine that has no version file is taken to have the version that its path
    states first.  What looks like a version holds no slash, so it lies in one name
    on the path, and the search takes the names from the left.  The name of the
    engine's own folder is the last one, so it decides only if nothing above it
    looks like a version; else the folder above decides, and with it where the build
    tool is looked for.

    Key theorems:
    - `firstVersion?_append_slash`: the search in a path and behind it,
    - `versionOfPath_named`: the version that the path of a named folder states,
    - `version_of_named`: the version of the engine in it, and its build tool.
-/

namespace ClangDb

namespace Engine

open Number (IsDigits IsDigitRun isAsciiDigit)

variable {s major minor mark : Text} {path : Text}

/-! ### Versions and slashes -/

theorem not_isDigit_slash : CodePoint.isDigit (.char '/') = false := by decide

theorem takeWhile_isDigit_append_slash (s rest : Text) :
    (s ++ .char '/' :: rest).takeWhile CodePoint.isDigit = s.takeWhile CodePoint.isDigit := by
  induction s with
  | nil => exact List.takeWhile_cons_of_neg (by simp [not_isDigit_slash])
  | cons c s ih =>
    rw [List.cons_append, List.takeWhile_cons, List.takeWhile_cons, ih]

theorem dropWhile_isDigit_append_slash (s rest : Text) :
    (s ++ .char '/' :: rest).dropWhile CodePoint.isDigit =
      s.dropWhile CodePoint.isDigit ++ .char '/' :: rest := by
  induction s with
  | nil => exact List.dropWhile_cons_of_neg (by simp [not_isDigit_slash])
  | cons c s ih =>
    rw [List.cons_append, List.dropWhile_cons, List.dropWhile_cons, ih]
    split <;> rfl

/-- The digits and the point of a version end before a slash. -/
theorem numbersAt?_append_slash (s rest : Text) :
    numbersAt? (s ++ .char '/' :: rest) = numbersAt? s := by
  unfold numbersAt?
  rw [List.span_eq_takeWhile_dropWhile, List.span_eq_takeWhile_dropWhile,
    takeWhile_isDigit_append_slash, dropWhile_isDigit_append_slash]
  cases s.takeWhile CodePoint.isDigit with
  | nil => rfl
  | cons d digits =>
    cases s.dropWhile CodePoint.isDigit with
    | nil => rfl
    | cons c r =>
      by_cases hc : c = .char '.'
      · subst hc
        simp only [List.cons_append, takeWhile_isDigit_append_slash]
      · simp [hc]

/-- A text without the mark at its beginning, if it has one. -/
def withoutMark : Text → Text
  | .char '_' :: r => r
  | .char '-' :: r => r
  | r => r

theorem versionAt?_eq (r : Text) :
    versionAt? (.char 'U' :: .char 'E' :: r) = numbersAt? (withoutMark r) := by
  unfold versionAt? withoutMark
  split <;> simp_all

/-- A version begins with its two letters. -/
theorem versionAt?_eq_none (h : ∀ r, s ≠ .char 'U' :: .char 'E' :: r) : versionAt? s = none := by
  unfold versionAt?
  split
  · exact absurd rfl (h _)
  · exact absurd rfl (h _)
  · exact absurd rfl (h _)
  · rfl

theorem withoutMark_append_slash (r rest : Text) :
    withoutMark (r ++ .char '/' :: rest) = withoutMark r ++ .char '/' :: rest := by
  cases r with
  | nil => rfl
  | cons c r =>
    unfold withoutMark
    split <;> simp_all

/-- What looks like a version ends before a slash. -/
theorem versionAt?_append_slash (s rest : Text) :
    versionAt? (s ++ .char '/' :: rest) = versionAt? s := by
  by_cases h : ∃ r, s = .char 'U' :: .char 'E' :: r
  · obtain ⟨r, rfl⟩ := h
    rw [List.cons_append, List.cons_append, versionAt?_eq, versionAt?_eq,
      withoutMark_append_slash, numbersAt?_append_slash]
  · have hnone : ∀ r, s ≠ .char 'U' :: .char 'E' :: r := fun r hr => h ⟨r, hr⟩
    rw [versionAt?_eq_none hnone, versionAt?_eq_none]
    -- two letters before the slash would be two letters of the text
    intro r hr
    match s with
    | [] => cases hr
    | [c] => cases hr
    | c :: d :: s =>
      obtain ⟨hc, hr⟩ := List.cons.inj hr
      obtain ⟨hd, _⟩ := List.cons.inj hr
      exact hnone s (by rw [hc, hd])

/-- **The first version in a path is the first one before a slash, or else the first one
    behind it.** -/
theorem firstVersion?_append_slash (s rest : Text) :
    firstVersion? (s ++ .char '/' :: rest) = (firstVersion? s).or (firstVersion? rest) := by
  induction s with
  | nil =>
    show (versionAt? (.char '/' :: rest)).or (firstVersion? rest) = firstVersion? rest
    rw [versionAt?_eq_none (by simp)]
    rfl
  | cons c s ih =>
    have hhere := versionAt?_append_slash (c :: s) rest
    rw [List.cons_append] at hhere
    rw [List.cons_append, firstVersion?, firstVersion?, hhere, ih, Option.or_assoc]

/-! ### Texts that look like a version -/

/-- Holds of what may stand between the letters of a version and its numbers. -/
def IsMark (mark : Text) : Prop :=
  mark = [] ∨ mark = Text.ofString "_" ∨ mark = Text.ofString "-"

/-- A text that looks like a version. -/
def versionText (mark major minor : Text) : Text :=
  .char 'U' :: .char 'E' :: (mark ++ (major ++ .char '.' :: minor))

/-- Two numbers at the beginning of a text are runs of digits with a point between them. -/
theorem numbersAt?_spec (h : numbersAt? s = some (major, minor)) :
    IsDigitRun major ∧ IsDigitRun minor ∧ ∃ rest, s = major ++ .char '.' :: (minor ++ rest) := by
  have hrun : ∀ (t : Text) d r, t.takeWhile CodePoint.isDigit = d :: r → IsDigitRun (d :: r) := by
    intro t d r ht
    exact ⟨List.cons_ne_nil _ _, fun c hc => List.mem_takeWhile_imp (ht ▸ hc)⟩
  have hparts := List.takeWhile_append_dropWhile (p := CodePoint.isDigit) (l := s)
  unfold numbersAt? at h
  rw [List.span_eq_takeWhile_dropWhile] at h
  cases hmajor : s.takeWhile CodePoint.isDigit with
  | nil =>
    rw [hmajor] at h
    cases h
  | cons d digits =>
    rw [hmajor] at h hparts
    split at h
    · cases h
    · next digits' r _ heq =>
      obtain ⟨hdigits, hleft⟩ := Prod.mk.inj heq
      cases hminor : r.takeWhile CodePoint.isDigit with
      | nil =>
        rw [hminor] at h
        cases h
      | cons e more =>
        rw [hminor] at h
        obtain ⟨hfirst, hsecond⟩ := Prod.mk.inj (Option.some.inj h)
        rw [← hfirst, ← hsecond, ← hdigits]
        refine ⟨hrun s d digits hmajor, hrun r e more hminor, r.dropWhile CodePoint.isDigit, ?_⟩
        rw [← hparts, hleft, ← hminor, List.takeWhile_append_dropWhile]
    · cases h

theorem exists_mark (r : Text) : ∃ mark, IsMark mark ∧ r = mark ++ withoutMark r := by
  unfold withoutMark
  split
  · exact ⟨_, .inr (.inl rfl), rfl⟩
  · exact ⟨_, .inr (.inr rfl), rfl⟩
  · exact ⟨[], .inl rfl, rfl⟩

/-- What looks like a version at the beginning of a text. -/
theorem versionAt?_spec (h : versionAt? s = some (major, minor)) :
    IsDigitRun major ∧ IsDigitRun minor ∧
      ∃ mark rest, IsMark mark ∧ s = versionText mark major minor ++ rest := by
  by_cases hletters : ∃ r, s = .char 'U' :: .char 'E' :: r
  · obtain ⟨r, rfl⟩ := hletters
    rw [versionAt?_eq] at h
    obtain ⟨hmajor, hminor, rest, hnumbers⟩ := numbersAt?_spec h
    obtain ⟨mark, hmark, hr⟩ := exists_mark r
    refine ⟨hmajor, hminor, mark, rest, hmark, ?_⟩
    rw [hr, hnumbers]
    simp [versionText]
  · rw [versionAt?_eq_none fun r hr => hletters ⟨r, hr⟩] at h
    cases h

/-- Nothing in a text looks like a version if nothing behind any part of it does. -/
theorem firstVersion?_eq_none_iff :
    firstVersion? s = none ↔ ∀ t, t <:+ s → versionAt? t = none := by
  induction s with
  | nil =>
    refine iff_of_true rfl ?_
    intro t ht
    rw [List.suffix_nil.mp ht]
    rfl
  | cons c s ih =>
    rw [firstVersion?, Option.or_eq_none_iff, ih]
    constructor
    · rintro ⟨hhere, hlater⟩ t ht
      rcases List.suffix_cons_iff.mp ht with rfl | ht
      · exact hhere
      · exact hlater t ht
    · intro h
      exact ⟨h _ (List.suffix_refl _), fun t ht => h t (ht.trans (List.suffix_cons c s))⟩

/-- What is found first is two runs of digits. -/
theorem isDigitRun_of_firstVersion? (h : firstVersion? s = some (major, minor)) :
    IsDigitRun major ∧ IsDigitRun minor := by
  induction s with
  | nil => cases h
  | cons c s ih =>
    rw [firstVersion?, Option.or_eq_some_iff] at h
    rcases h with h | ⟨_, h⟩
    · obtain ⟨hmajor, hminor, _⟩ := versionAt?_spec h
      exact ⟨hmajor, hminor⟩
    · exact ih h

theorem versionOfPath_eq (path : Text) :
    versionOfPath path =
      (firstVersion? path).bind fun numbers => numberOf? numbers.1 numbers.2 := by
  unfold versionOfPath
  cases firstVersion? path <;> rfl

/-- **A path that looks as if it stated a version states one**: its digits are a number. -/
theorem versionOfPath_eq_none_iff_first :
    versionOfPath path = none ↔ firstVersion? path = none := by
  rw [versionOfPath_eq]
  cases hfirst : firstVersion? path with
  | none => exact iff_of_true rfl rfl
  | some numbers =>
    obtain ⟨hmajor, hminor⟩ := isDigitRun_of_firstVersion? hfirst
    obtain ⟨n, _, hnumber⟩ := Number.fraction?_point hmajor hminor
    rw [Option.bind_some, numberOf?, hnumber]
    exact iff_of_false (by simp) (by simp)

theorem numbersAt?_point (hmajor : IsDigitRun major) (hminor : IsDigitRun minor) (rest : Text) :
    ∃ more, numbersAt? (major ++ .char '.' :: (minor ++ rest)) = some (major, minor ++ more) ∧
      (rest = [] → more = []) := by
  have hpoint : CodePoint.isDigit (.char '.') = false := by decide
  have htaken : (major ++ .char '.' :: (minor ++ rest)).takeWhile CodePoint.isDigit = major := by
    rw [List.takeWhile_append_of_pos hmajor.2, List.takeWhile_cons_of_neg (by simp [hpoint]),
      List.append_nil]
  have hleft : (major ++ .char '.' :: (minor ++ rest)).dropWhile CodePoint.isDigit =
      .char '.' :: (minor ++ rest) := by
    rw [List.dropWhile_append_of_pos hmajor.2, List.dropWhile_cons_of_neg (by simp [hpoint])]
  have hdigits : (minor ++ rest).takeWhile CodePoint.isDigit =
      minor ++ rest.takeWhile CodePoint.isDigit := List.takeWhile_append_of_pos hminor.2
  refine ⟨rest.takeWhile CodePoint.isDigit, ?_, fun hnil => by rw [hnil]; rfl⟩
  unfold numbersAt?
  rw [List.span_eq_takeWhile_dropWhile, htaken, hleft]
  cases major with
  | nil => exact absurd rfl hmajor.1
  | cons c major =>
    cases minor with
    | nil => exact absurd rfl hminor.1
    | cons d minor =>
      rw [List.cons_append] at hdigits
      simp only [List.cons_append, hdigits]

theorem withoutMark_append (hmark : IsMark mark) (hmajor : IsDigitRun major) (rest : Text) :
    withoutMark (mark ++ (major ++ rest)) = major ++ rest := by
  rcases hmark with rfl | rfl | rfl
  · cases major with
    | nil => exact absurd rfl hmajor.1
    | cons c major =>
      have hc := hmajor.2 c List.mem_cons_self
      unfold withoutMark
      rw [List.nil_append, List.cons_append]
      split
      · next heq => exact absurd hc (by rw [(List.cons.inj heq).1]; decide)
      · next heq => exact absurd hc (by rw [(List.cons.inj heq).1]; decide)
      · rfl
  · rfl
  · rfl

/-- The numbers of a version are followed by anything but a digit. -/
theorem versionAt?_versionText (hmark : IsMark mark) (hmajor : IsDigitRun major)
    (hminor : IsDigitRun minor) (rest : Text) :
    ∃ more, versionAt? (versionText mark major minor ++ rest) = some (major, minor ++ more) ∧
      (rest = [] → more = []) := by
  obtain ⟨more, hmore, hnil⟩ := numbersAt?_point hmajor hminor rest
  refine ⟨more, ?_, hnil⟩
  have htext : versionText mark major minor ++ rest =
      .char 'U' :: .char 'E' :: (mark ++ (major ++ .char '.' :: (minor ++ rest))) := by
    simp [versionText]
  rw [htext, versionAt?_eq, withoutMark_append hmark hmajor, hmore]

/-- **A path states no version exactly if nothing in it looks like one.** -/
theorem versionOfPath_eq_none_iff : versionOfPath path = none ↔
    ∀ mark major minor, IsMark mark → IsDigitRun major → IsDigitRun minor →
      ¬ versionText mark major minor <:+: path := by
  rw [versionOfPath_eq_none_iff_first, firstVersion?_eq_none_iff]
  constructor
  · rintro h mark major minor hmark hmajor hminor ⟨before, rest, rfl⟩
    obtain ⟨more, hversion, _⟩ := versionAt?_versionText hmark hmajor hminor rest
    rw [h _ ⟨before, (List.append_assoc _ _ _).symm⟩] at hversion
    cases hversion
  · rintro h t ⟨before, rfl⟩
    cases hversion : versionAt? t with
    | none => rfl
    | some numbers =>
      obtain ⟨hmajor, hminor, mark, rest, hmark, rfl⟩ := versionAt?_spec hversion
      exact absurd ⟨before, rest, List.append_assoc _ _ _⟩ (h mark _ _ hmark hmajor hminor)

/-! ### Named folders -/

/-- The path of a folder that is named after a version. -/
def named (parent mark major minor : Text) : Text :=
  parent ++ "/UE" ++ mark ++ major ++ "." ++ minor

theorem isDigitRun_of_isDigits (h : IsDigits s) : IsDigitRun s :=
  ⟨h.1, fun c hc => Number.isDigit_of_isAsciiDigit (h.2 c hc)⟩

/-- **What the path of a named folder looks like first**: what is above it comes first. -/
theorem firstVersion?_named (parent : Text) (hmark : IsMark mark) (hmajor : IsDigitRun major)
    (hminor : IsDigitRun minor) : firstVersion? (named parent mark major minor) =
      (firstVersion? parent).or (some (major, minor)) := by
  have hname : named parent mark major minor =
      parent ++ .char '/' :: versionText mark major minor := by
    simp only [named, List.append_assoc]
    rfl
  obtain ⟨more, hversion, hnil⟩ := versionAt?_versionText hmark hmajor hminor []
  rw [List.append_nil, hnil rfl, List.append_nil] at hversion
  have hfirst : firstVersion? (versionText mark major minor) = some (major, minor) := by
    rw [versionText, firstVersion?, ← versionText, hversion, Option.some_or]
  rw [hname, firstVersion?_append_slash, hfirst]

/-- **The version that the path of a named folder states** is the one that is stated above, or
    else its own. -/
theorem versionOfPath_named (parent : Text) (hmark : IsMark mark) (hmajor : IsDigitRun major)
    (hminor : IsDigitRun minor) : versionOfPath (named parent mark major minor) =
      (versionOfPath parent).or (numberOf? major minor) := by
  have hfirst := firstVersion?_named parent hmark hmajor hminor
  cases hparent : firstVersion? parent with
  | none =>
    rw [hparent] at hfirst
    rw [versionOfPath_eq_none_iff_first.mpr hparent, versionOfPath_eq, hfirst]
    rfl
  | some numbers =>
    rw [hparent] at hfirst
    have habove : versionOfPath parent ≠ none := by
      intro hnone
      rw [versionOfPath_eq_none_iff_first, hparent] at hnone
      cases hnone
    rw [Option.or_of_isSome (Option.isSome_iff_ne_none.mpr habove), versionOfPath_eq, hfirst,
      versionOfPath_eq, hparent]
    rfl

/-! ### Engines in named folders -/

/-- Holds of an engine whose version file is missing or states none. -/
def StatesNone (store : Store) (root : Text) : Prop :=
  ∀ bytes, store.read (versionFile root).toText = .ok bytes → versionOfBytes bytes = .ok none

/-- What is taken for a version: zero is none. -/
def orUsual (x : Binary64) : Binary64 := if x.isZero then usualVersion else x

theorem version_of_statesNone {store : Store} {root : Text} (h : StatesNone store root) :
    version store root = .ok (orUsual ((versionOfPath root).getD usualVersion)) := by
  unfold version
  cases hread : store.read (versionFile root).toText with
  | ok bytes =>
    simp only [h bytes hread]
    rfl
  | error e => rfl

/-- Engines have their build tool in one place exactly if all or none of them are older than
    version 5. -/
theorem buildTool_eq_iff (platform : Platform) (folder : Text) (x y : Binary64) :
    Tool.buildTool platform folder (some x) = Tool.buildTool platform folder (some y) ↔
      x.ltNat 5 = y.ltNat 5 := by
  have hlonger : ∀ front name : Text, front ++ name ≠ front ++ "UnrealBuildTool/" ++ name := by
    intro front name h
    have hlength := congrArg List.length h
    simp only [List.length_append] at hlength
    have hfolder : (Text.ofString "UnrealBuildTool/").length = 16 := rfl
    omega
  unfold Tool.buildTool
  cases hx : x.ltNat 5 with
  | false =>
    cases hy : y.ltNat 5 with
    | false => simp only [hx, hy, Bool.false_eq_true, if_false]
    | true =>
      simp only [hx, hy, Bool.false_eq_true, if_false, if_true, iff_false]
      exact (hlonger _ _).symm
  | true =>
    cases hy : y.ltNat 5 with
    | false =>
      simp only [hx, hy, Bool.false_eq_true, if_false, if_true, reduceCtorEq, iff_false]
      exact hlonger _ _
    | true => simp only [hx, hy, if_true]

/-- **The version of the engine in a named folder.**  The digits of its name are read as a
    number.  The path states that number if nothing above the folder looks like a version, and
    the number that is stated above otherwise.  An engine without a version file has the number
    that its path states, unless that is zero, and its build tool is looked for in the place for
    that number. -/
theorem version_of_named (store : Store) (platform : Platform) (parent : Text)
    (hmark : IsMark mark) (hmajor : IsDigits major) (hminor : IsDigits minor) :
    ∃ own n, numberOf? major minor = some own ∧ Number.natOf? 10 (major ++ minor) = some n ∧
      own = .ofDecimal false n (-(minor.length : Int)) ∧
      versionOfPath (named parent mark major minor) = some ((versionOfPath parent).getD own) ∧
      (versionOfPath parent = none ↔ ∀ mark' major' minor', IsMark mark' → IsDigitRun major' →
        IsDigitRun minor' → ¬ versionText mark' major' minor' <:+: parent) ∧
      (StatesNone store (named parent mark major minor) →
        ∃ taken, version store (named parent mark major minor) = .ok taken ∧
          taken = orUsual ((versionOfPath parent).getD own) ∧
          (Tool.buildTool platform (named parent mark major minor) (some taken) =
              Tool.buildTool platform (named parent mark major minor) (some own) ↔
            taken.ltNat 5 = own.ltNat 5)) := by
  have hmajor' := isDigitRun_of_isDigits hmajor
  have hminor' := isDigitRun_of_isDigits hminor
  obtain ⟨n, hn, hnumber⟩ := Number.fraction?_point hmajor' hminor'
  rw [Number.toAscii_eq_self hmajor, Number.toAscii_eq_self hminor] at hn
  have hpath := versionOfPath_named parent hmark hmajor' hminor'
  have hown : numberOf? major minor = some (.ofDecimal false n (-(minor.length : Int))) := hnumber
  rw [hown] at hpath
  have hstated : versionOfPath (named parent mark major minor) =
      some ((versionOfPath parent).getD (.ofDecimal false n (-(minor.length : Int)))) := by
    rw [hpath]
    cases versionOfPath parent <;> rfl
  refine ⟨_, n, hown, hn, rfl, hstated, versionOfPath_eq_none_iff, ?_⟩
  intro hnone
  refine ⟨_, version_of_statesNone hnone, ?_, buildTool_eq_iff platform _ _ _⟩
  rw [hstated, Option.getD_some]

/-- An engine of version 5.3 below a folder for version 4.27: its path states the older version,
    and its build tool is looked for where the older engines have it. -/
theorem version_of_named_nested :
    IsMark "_" ∧ IsDigits "5" ∧ IsDigits "3" ∧
      named "/UE_4.27" "_" "5" "3" = Text.ofString "/UE_4.27/UE_5.3" ∧
      versionOfPath "/UE_4.27/UE_5.3" = numberOf? "4" "27" ∧
      numberOf? "4" "27" ≠ numberOf? "5" "3" ∧
      ∃ taken own, numberOf? "5" "3" = some own ∧
        version ⟨[], []⟩ "/UE_4.27/UE_5.3" = .ok taken ∧
        Tool.buildTool .linux "/UE_4.27/UE_5.3" (some taken) ≠
          Tool.buildTool .linux "/UE_4.27/UE_5.3" (some own) := by
  have hmark : IsMark "_" := .inr (.inl rfl)
  have hmajor : IsDigits "5" := ⟨by decide, by decide⟩
  have hminor : IsDigits "3" := ⟨by decide, by decide⟩
  obtain ⟨own, n, hown, _, _, hpath, _, hversion⟩ :=
    version_of_named ⟨[], []⟩ .linux "/UE_4.27" hmark hmajor hminor
  have habove : versionOfPath "/UE_4.27" = numberOf? "4" "27" := by decide +kernel
  have hnone : StatesNone ⟨[], []⟩ (named "/UE_4.27" "_" "5" "3") := by
    intro bytes hread
    cases hread
  obtain ⟨taken, htaken, hvalue, htool⟩ := hversion hnone
  refine ⟨hmark, hmajor, hminor, rfl, ?_, by decide +kernel, taken, own, hown, htaken, ?_⟩
  · rw [habove] at hpath
    exact hpath
  · intro hsame
    have hold := htool.mp hsame
    rw [hvalue, habove] at hold
    have hdiffers : ∀ own, numberOf? "5" "3" = some own →
        (orUsual ((numberOf? "4" "27").getD own)).ltNat 5 ≠ own.ltNat 5 := by
      intro own hown
      rw [← Option.some.inj hown]
      decide +kernel
    exact hdiffers own hown hold

end Engine

end ClangDb
