import ClangDb.Proofs.Database.Names
import ClangDb.Proofs.Database.Pass
import ClangDb.Proofs.FileStore.Suffix

/-! # The response files that a database refers to

    A response file that a command refers to is an input of the pass.  Its copy
    has a suffix more and is never written in its place, however the two paths
    are followed.  So a job that overwrites a response file is not a copy of it:
    it belongs to an inline command whose name is that of the file, or it is the
    copy of another response file, whose name with the suffix is that of the
    file.

    A response file that no such job leads to is read after the pass as it was
    read before; another one holds what was written last in its place.

    Key theorems:
    - `locate_copy_ne`: a copy is never written in the place of its original,
    - `IsJobOf.path_eq_iff`: the jobs that take a path,
    - `lastAt_eq_none_of_jobs`: the places that a run leaves alone,
    - `pass_keepsReferences`: all response files that a database refers to.
-/

namespace ClangDb

namespace Database

open Utf8 (decodeEscaping)

variable {s s' made : Store} {o : Options} {job : Job} {jobs : List Job} {effects : List Effect}
  {path : Text} {p : Place}

/-! ### References -/

/-- Holds of a command line and the normalized path of a response file that it refers to,
    anywhere behind its compiler. -/
def References (dialect : Dialect) (line path : Text) : Prop :=
  ∃ c before rest spelled after, Command.ofLine? dialect line = some c ∧
    c.tail = before ++ (reference ++ rest) ∧ Text.cut? escapedQuote rest = some (spelled, after) ∧
    path = Path.normalize spelled

/-- Holds of a job that takes a path: that of an inline command with the name, or the copy of
    another response file, which has the name without the suffix. -/
inductive Takes (o : Options) (path : Text) : Job → Prop where
  | inline {file tail : Text} : o.outputDir ++ "/" ++ flatName file = path →
      Takes o path (o.inlineJob file tail)
  | copy {file source : Text} : source ≠ path → source ++ copySuffix o.dialect source = path →
      Takes o path (o.copyJob file source)

/-- **A job has a path exactly if it takes it**, so that no copy takes the path that it is made
    from. -/
theorem IsJobOf.path_eq_iff {file : Text} {c : Command} (h : IsJobOf o file c job) :
    job.path = path ↔ Takes o path job := by
  constructor
  · rintro rfl
    cases h with
    | inline => exact .inline rfl
    | @copy _ _ spelled _ _ _ =>
      have hname := copyName_eq o.dialect (Path.normalize spelled)
      exact .copy (Ne.symm (copyName_ne o.dialect (Path.normalize spelled))) hname.symm
  · intro htakes
    cases htakes with
    | inline hpath => exact hpath
    | copy _ hpath =>
      rw [← copyName_eq] at hpath
      exact hpath

/-! ### Places -/

/-- Holds of a job that is made from the response file at a place. -/
def Job.IsFrom (made : Store) (p : Place) (job : Job) : Prop :=
  ∃ source engineDir dialect, job.content = .conversion source engineDir dialect ∧
    made.locate source = .ok p

/-- **A copy is never written in the place of its original.** -/
theorem locate_copy_ne {dialect : Dialect} {source : Text} {q : Place}
    (h : s.locate source = .ok p) (h' : s.locate (copyName dialect source) = .ok q) : p ≠ q := by
  rw [copyName_eq] at h'
  obtain ⟨hslash, hlong⟩ := copySuffix_shape dialect source
  exact Store.locate_append_ne hslash hlong h h'

theorem IsJobOf.locate_ne {file : Text} {c : Command} (h : IsJobOf o file c job)
    (hfrom : job.IsFrom made p) : made.locate job.path ≠ .ok p := by
  obtain ⟨source, engineDir, dialect, hcontent, hlocate⟩ := hfrom
  intro hplace
  cases h with
  | inline => cases hcontent
  | copy =>
    obtain ⟨rfl, _, _⟩ := Content.conversion.inj hcontent
    exact locate_copy_ne hlocate hplace rfl

/-- **A place that no job leads to is left alone.** -/
theorem lastAt_eq_none_of_jobs (h : Runs made jobs effects s')
    (hjobs : ∀ job ∈ jobs, made.locate job.path ≠ .ok p) : lastAt p effects = none := by
  induction h with
  | nil s => rfl
  | @cons s s' job jobs effect effects hdoes _ ih =>
    -- the paths of the later jobs lead where they led before this one
    have hmore : lastAt p effects = none := by
      apply ih
      intro k hk hplace
      exact hjobs k (List.mem_cons_of_mem _ hk) (hdoes.locate_iff.mp hplace)
    cases effect with
    | failed e => exact hmore
    | written q bytes =>
      have hne : q ≠ p := by
        rintro rfl
        exact hjobs job List.mem_cons_self hdoes.place.2.1
      rw [lastAt, hmore, if_neg hne]
      rfl

/-! ### A pass -/

/-- Holds of the path of a response file, the store before a pass, the store with the output
    folder, the jobs of the pass, the effects of those that ran, and the store after it. -/
structure KeepsReference (o : Options) (s made : Store) (jobs : List Job) (effects : List Effect)
    (s' : Store) (path : Text) : Prop where
  /-- The jobs with the path of the response file are those that take it. -/
  taken : ∀ job ∈ jobs, (job.path = path ↔ Takes o path job)
  /-- No copy of the response file leads to its place. -/
  copies : ∀ p, ∀ job ∈ jobs, job.IsFrom made p → made.locate job.path ≠ .ok p
  /-- The response file is read as it was, unless another job leads to its place. -/
  kept : ∀ orig p, s.read path = .ok orig → s.locate path = .ok p →
    (∀ job ∈ jobs, ¬ job.IsFrom made p → made.locate job.path ≠ .ok p) →
    s'.read path = .ok orig
  /-- It is read as it was written last in its place, if it was written there at all. -/
  replaced : ∀ orig p, s.read path = .ok orig → s.locate path = .ok p →
    s'.read path = .ok ((lastAt p effects).getD orig)

theorem keepsReference_of_runs {lines : List Text} {before : List Job}
    (hmade : Store.AddsFolders s made) (hbefore : before <+: (scanLines o .initial lines).jobs)
    (h : Runs made before effects s') (path : Text) :
    KeepsReference o s made (scanLines o .initial lines).jobs effects s' path := by
  have hcopies : ∀ p, ∀ job ∈ (scanLines o .initial lines).jobs, job.IsFrom made p →
      made.locate job.path ≠ .ok p := by
    intro p job hmem hfrom
    obtain ⟨c, hc⟩ := exists_isJobOf_of_mem hmem
    exact hc.locate_ne hfrom
  have hreplaced : ∀ orig p, s.read path = .ok orig → s.locate path = .ok p →
      s'.read path = .ok ((lastAt p effects).getD orig) := by
    intro orig p hread hlocate
    exact h.read_eq (hmade.keeps.locate hlocate) (hmade.read hread)
  refine ⟨?_, hcopies, ?_, hreplaced⟩
  · intro job hmem
    obtain ⟨c, hc⟩ := exists_isJobOf_of_mem hmem
    exact hc.path_eq_iff
  · intro orig p hread hlocate hothers
    have hnone : lastAt p effects = none := by
      apply lastAt_eq_none_of_jobs h
      intro job hran
      have hmem := hbefore.subset hran
      by_cases hfrom : job.IsFrom made p
      · exact hcopies p job hmem hfrom
      · exact hothers job hmem hfrom
    rw [hreplaced orig p hread hlocate, hnone]
    rfl

/-- **The response files that a database refers to**: a job of the pass has the path of one
    exactly if it takes it, its own copies are never written in its place, and it is read as it
    was unless another job leads there. -/
theorem pass_keepsReferences {r : Request} {bytes : List UInt8}
    (hread : s.read r.input = .ok bytes) :
    ∃ made before effects, Store.AddsFolders s made ∧ before <+: (r.scan bytes).jobs ∧
      Runs made before effects (pass s r).store ∧
      ∀ raw ∈ Text.rawLines (decodeEscaping bytes), ∀ path,
        References r.options.dialect (Text.splitEnding raw).1 path →
        KeepsReference r.options s made (r.scan bytes).jobs effects (pass s r).store path := by
  obtain ⟨made, before, effects, hadds, hbefore, hruns⟩ := runs_of_pass hread
  exact ⟨made, before, effects, hadds, hbefore, hruns,
    fun _ _ path _ => keepsReference_of_runs hadds hbefore hruns path⟩

/-- A database that refers to two response files, the second of which is named like the copy of
    the first. -/
def referenceLines : List Text := [
  "[\x7b\"file\": \"a.cpp\",\n", "\"command\": \"\\\"clang++\\\" @\\\"foo\\\"\",\n",
  "\"n\": 1\x7d,\n", "\x7b\"file\": \"b.cpp\",\n",
  "\"command\": \"\\\"clang++\\\" @\\\"foo.rsp\\\"\",\n", "\"n\": 2\x7d]\n"]

/-- A store that holds the database and both response files. -/
def referenceStore : Store := storeOf referenceLines
  [(["foo"], .file [0x41] none), (["foo.rsp"], .file [0x42] none)]

/-- The pass over the sample leaves `foo` as it was.  Where `foo.rsp` was it writes the copy of
    `foo`, whose name that is, and no error is reported. -/
theorem pass_keepsReferences_sample :
    ∃ report made effects, (pass referenceStore inputRequest).outcome = .ok report ∧
      report.errors = [] ∧
      KeepsReference inputRequest.options referenceStore made
        (inputRequest.scan (inputOf referenceLines)).jobs effects
        (pass referenceStore inputRequest).store "foo" ∧
      (pass referenceStore inputRequest).store.read "foo" = referenceStore.read "foo" ∧
      References .clang "\"command\": \"\\\"clang++\\\" @\\\"foo.rsp\\\"\"," "foo.rsp" ∧
      (∃ job ∈ (inputRequest.scan (inputOf referenceLines)).jobs, job.path = "foo.rsp") ∧
      (pass referenceStore inputRequest).store.read "foo.rsp" ≠
        referenceStore.read "foo.rsp" := by
  have hrun : (pass referenceStore inputRequest).outcome.toOption.map (·.errors) = some [] ∧
      ((pass referenceStore inputRequest).store.read "foo").toOption = some [0x41] ∧
      ((pass referenceStore inputRequest).store.read "foo.rsp").toOption ≠ some [0x42] := by
    decide +kernel
  obtain ⟨hreport, hfoo, hcopy⟩ := hrun
  obtain ⟨report, hreport, herrors⟩ := Option.map_eq_some_iff.mp hreport
  have hlines : Text.rawLines (decodeEscaping (inputOf referenceLines)) = referenceLines := by
    decide +kernel
  obtain ⟨made, _, effects, _, _, _, hkeeps⟩ := pass_keepsReferences (read_storeOf referenceLines _)
  refine ⟨report, made, effects, eq_ok_of_toOption hreport, herrors, ?_, eq_ok_of_toOption hfoo,
    ?_, ?_, ?_⟩
  · refine hkeeps "\"command\": \"\\\"clang++\\\" @\\\"foo\\\"\",\n" ?_ "foo" ?_
    · rw [hlines]
      decide +kernel
    · refine ⟨⟨[], "\"\\\"clang++\\\"", " @\\\"foo\\\"\","⟩, " ", "foo\\\"\",", "foo", "\",", ?_⟩
      decide +kernel
  · refine ⟨⟨[], "\"\\\"clang++\\\"", " @\\\"foo.rsp\\\"\","⟩, " ", "foo.rsp\\\"\",", "foo.rsp",
      "\",", ?_⟩
    decide +kernel
  · decide +kernel
  · have horig : referenceStore.read "foo.rsp" = .ok [0x42] := rfl
    rw [horig]
    intro hsame
    rw [hsame] at hcopy
    exact hcopy rfl

end Database

end ClangDb
