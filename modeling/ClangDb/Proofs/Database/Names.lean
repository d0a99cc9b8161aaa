import ClangDb.Proofs.Database.Schedule
import ClangDb.Proofs.Path.Separator

/-! # The names of response files

    The copy of a response file is named after it, with a suffix.  The suffixes
    tell all copies apart except in one case: where the compiler is clang, `a.rsp`
    and `a.rsp.clang` have copies of one name.  The response file of an inline
    command is named after its source, and a flat name tells sources apart as
    long as they hold neither underscores nor code points that are left out.

    Two jobs of one pass have one path only if they have one content or if their
    names clash in one of these ways.

    Key theorems:
    - `copyName_eq_iff`: the copies of one name,
    - `normalize_eq_of_flatName_eq`: the sources of one flat name,
    - `IsJobOf.clash_iff`: the jobs of one path.
-/

namespace ClangDb

namespace Database

/-! ### Names of copies -/

/-- What the name of a copy adds to the path of a response file. -/
def copySuffix (dialect : Dialect) (path : Text) : Text :=
  match dialect with
  | .msvc => ".cl.rsp"
  | .clang => if path.endsWith ".rsp" then ".clang.rsp" else ".rsp"

theorem copyName_eq (dialect : Dialect) (path : Text) :
    copyName dialect path = path ++ copySuffix dialect path := by
  cases dialect with
  | msvc => rfl
  | clang =>
    simp only [copyName, copySuffix]
    split <;> rfl

/-- There are few suffixes. -/
theorem copySuffix_cases (dialect : Dialect) (path : Text) :
    copySuffix dialect path ∈ [(".cl.rsp" : Text), ".clang.rsp", ".rsp"] := by
  unfold copySuffix
  split
  · simp
  · split <;> simp

/-- A suffix adds to the last name on a path. -/
theorem copySuffix_shape (dialect : Dialect) (path : Text) :
    .char '/' ∉ copySuffix dialect path ∧ 2 < (copySuffix dialect path).length := by
  have hshape : ∀ t ∈ [((".cl.rsp" : String) : Text), (".clang.rsp" : String), (".rsp" : String)],
      CodePoint.char '/' ∉ t ∧ 2 < t.length := by decide
  exact hshape _ (copySuffix_cases dialect path)

/-- A copy has another name than the response file that it is made from. -/
theorem copyName_ne (dialect : Dialect) (path : Text) : copyName dialect path ≠ path := by
  intro h
  have hsuffix := copySuffix_cases dialect path
  rw [copyName_eq, List.append_right_eq_self] at h
  rw [h] at hsuffix
  exact absurd hsuffix (by decide)

/-- Holds of a response file and another with the same name and one suffix more, whose copies
    have one name where the compiler is clang. -/
def Shadows (path other : Text) : Prop := path.endsWith ".rsp" = true ∧ other = path ++ ".clang"

theorem copyName_of_shadows {path other : Text} (h : Shadows path other) :
    copyName .clang path = copyName .clang other := by
  obtain ⟨hpath, rfl⟩ := h
  have hother : Text.endsWith (path ++ ".clang") ".rsp" = false := by
    rw [Bool.eq_false_iff]
    intro hends
    -- the two ends differ in their last letters
    obtain ⟨front, hfront⟩ := List.isSuffixOf_iff_suffix.mp hends
    have hlast := congrArg List.getLast? hfront
    rw [List.getLast?_append, List.getLast?_append] at hlast
    have hletters : some (CodePoint.char 'p') = some (CodePoint.char 'g') := hlast
    exact absurd hletters (by decide)
  rw [copyName, copyName, if_pos hpath, if_neg (by rw [hother]; decide), List.append_assoc]
  rfl

/-- **Copies have one name only if they are made from one response file**, or from two of
    which the one shadows the other. -/
theorem copyName_eq_iff {dialect : Dialect} {p q : Text} :
    copyName dialect p = copyName dialect q ↔
      p = q ∨ dialect = .clang ∧ (Shadows p q ∨ Shadows q p) := by
  constructor
  · intro h
    cases dialect with
    | msvc => exact .inl (List.append_cancel_right h)
    | clang =>
      have hmark : ((".clang.rsp" : String) : Text) = (".clang" : Text) ++ (".rsp" : Text) := rfl
      unfold copyName at h
      by_cases hp : p.endsWith ".rsp" = true
      · by_cases hq : q.endsWith ".rsp" = true
        · rw [if_pos hp, if_pos hq] at h
          exact .inl (List.append_cancel_right h)
        · rw [if_pos hp, if_neg hq, hmark, ← List.append_assoc] at h
          exact .inr ⟨rfl, .inl ⟨hp, (List.append_cancel_right h).symm⟩⟩
      · by_cases hq : q.endsWith ".rsp" = true
        · rw [if_neg hp, if_pos hq, hmark, ← List.append_assoc] at h
          exact .inr ⟨rfl, .inr ⟨hq, List.append_cancel_right h⟩⟩
        · rw [if_neg hp, if_neg hq] at h
          exact .inl (List.append_cancel_right h)
  · rintro (rfl | ⟨rfl, h | h⟩)
    · rfl
    · exact copyName_of_shadows h
    · exact (copyName_of_shadows h).symm

/-! ### Flat names -/

/-- A flat name is one name. -/
theorem not_mem_flatName (file : Text) : .char '/' ∉ flatName file := by
  intro h
  rcases List.mem_append.mp h with h | h
  · exact Text.not_mem_substitute (by decide) h
  · exact absurd h (by decide)

theorem flatName_ne_nil (file : Text) : flatName file ≠ [] := by
  intro h
  have hend := (List.append_eq_nil_iff.mp h).2
  exact absurd hend (by decide)

/-- Holds of a source file whose flat name keeps all of it but how its names are separated. -/
def KeptFlat (file : Text) : Prop := ∀ c ∈ file, c ≠ .char '_' ∧ isDropped c = false

/-- A substitution by a code point that was not there is undone by the reverse one. -/
theorem substitute_substitute {old new : CodePoint} {s : Text} (h : new ∉ s) :
    (s.substitute old new).substitute new old = s := by
  have hsame : ∀ c ∈ s, (if (if c = old then new else c) = new then old
      else if c = old then new else c) = c := by
    intro c hc
    have hne : c ≠ new := fun he => h (he ▸ hc)
    by_cases hold : c = old
    · rw [if_pos hold, if_pos rfl, hold]
    · rw [if_neg hold, if_neg hne]
  unfold Text.substitute
  rw [List.map_map]
  exact (List.map_congr_left hsame).trans (List.map_id s)

/-- **Sources of one flat name are one path**, if their flat names keep them. -/
theorem normalize_eq_of_flatName_eq {f g : Text} (hf : KeptFlat f) (hg : KeptFlat g)
    (h : flatName f = flatName g) : Path.normalize f = Path.normalize g := by
  -- with pairs of backslashes replaced, nothing is left out and no underscore is there
  have hkept : ∀ {x : Text}, KeptFlat x → KeptFlat (x.replaceAll "\\\\" "/") := fun hx =>
    forall_mem_replaceAll (P := fun c => c ≠ .char '_' ∧ isDropped c = false) _ hx (by decide)
  have hfilter : ∀ {x : Text}, KeptFlat x → x.filter (!isDropped ·) = x := fun hx =>
    List.filter_eq_self.mpr fun c hc => by rw [(hx c hc).2]; rfl
  have hnone : ∀ {x : Text}, KeptFlat x → .char '_' ∉ x.substitute '\\' '/' := by
    intro x hx hmem
    rcases Text.mem_substitute hmem with ⟨hc, _⟩ | hc
    · exact (hx _ hc).1 rfl
    · exact absurd hc (by decide)
  simp only [flatName, hfilter (hkept hf), hfilter (hkept hg)] at h
  have hslashes := congrArg (fun x : Text => x.substitute '_' '/') (List.append_cancel_right h)
  rw [substitute_substitute (hnone (hkept hf)), substitute_substitute (hnone (hkept hg))]
    at hslashes
  rw [← Path.normalize_replaceAll f, ← Path.normalize_replaceAll g]
  exact congrArg Path.collapse hslashes

/-! ### Jobs of one path -/

/-- Holds of two jobs whose names clash: of inline commands with one flat name and other
    arguments, of an inline command named like a copy, and of copies of response files of
    which the one shadows the other. -/
def Clash (o : Options) (j k : Job) : Prop :=
  match j.content, k.content with
  | .arguments t, .arguments u => flatName j.sourceFile = flatName k.sourceFile ∧ t ≠ u
  | .arguments _, .conversion q _ _ =>
    o.outputDir ++ "/" ++ flatName j.sourceFile = copyName o.dialect q
  | .conversion p _ _, .arguments _ =>
    copyName o.dialect p = o.outputDir ++ "/" ++ flatName k.sourceFile
  | .conversion p _ _, .conversion q _ _ => o.dialect = .clang ∧ (Shadows p q ∨ Shadows q p)

theorem not_shadows_self {path : Text} : ¬ Shadows path path := by
  rintro ⟨_, h⟩
  have hlength := congrArg List.length h
  rw [List.length_append] at hlength
  exact absurd (Nat.left_eq_add.mp hlength) (by decide)

/-- **Two jobs have one path and not one content exactly if their names clash.** -/
theorem IsJobOf.clash_iff {o : Options} {f g : Text} {c d : Command} {j k : Job}
    (hj : IsJobOf o f c j) (hk : IsJobOf o g d k) :
    j.path = k.path ∧ j.content ≠ k.content ↔ Clash o j k := by
  cases hj with
  | inline =>
    cases hk with
    | inline =>
      show o.outputDir ++ "/" ++ flatName f = o.outputDir ++ "/" ++ flatName g ∧
        Content.arguments c.tail ≠ .arguments d.tail ↔ flatName f = flatName g ∧ c.tail ≠ d.tail
      rw [List.append_cancel_left_eq, Ne, Content.arguments.injEq]
    | @copy _ _ q _ _ _ =>
      show o.outputDir ++ "/" ++ flatName f = copyName o.dialect (Path.normalize q) ∧ _ ↔
        o.outputDir ++ "/" ++ flatName f = copyName o.dialect (Path.normalize q)
      exact and_iff_left (by simp [Options.inlineJob, Options.copyJob])
  | @copy _ _ p _ _ _ =>
    cases hk with
    | inline =>
      show copyName o.dialect (Path.normalize p) = o.outputDir ++ "/" ++ flatName g ∧ _ ↔
        copyName o.dialect (Path.normalize p) = o.outputDir ++ "/" ++ flatName g
      exact and_iff_left (by simp [Options.inlineJob, Options.copyJob])
    | @copy _ _ q _ _ _ =>
      show copyName o.dialect (Path.normalize p) = copyName o.dialect (Path.normalize q) ∧
        Content.conversion (Path.normalize p) o.engineDir o.dialect ≠
          .conversion (Path.normalize q) o.engineDir o.dialect ↔
        o.dialect = .clang ∧ (Shadows (Path.normalize p) (Path.normalize q) ∨
          Shadows (Path.normalize q) (Path.normalize p))
      rw [copyName_eq_iff]
      constructor
      · rintro ⟨heq | hclang, hne⟩
        · exact absurd (by rw [heq]) hne
        · exact hclang
      · rintro ⟨hclang, hshadows⟩
        refine ⟨.inr ⟨hclang, hshadows⟩, fun heq => ?_⟩
        have hsame := (Content.conversion.inj heq).1
        rw [hsame] at hshadows
        exact hshadows.elim not_shadows_self not_shadows_self

end Database

end ClangDb
