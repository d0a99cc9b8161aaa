import ClangDb.Proofs.Database.Names
import ClangDb.Proofs.Database.Refusal
import ClangDb.Proofs.FileStore.Suffix

/-! # The places that a pass changes

    The name of a response file ends in the suffix of response files, so no file
    of another name is written by a job, however the jobs are shared out.  What
    else a pass changes are folders on the way to its output folder: they are
    made where nothing stood.

    This says what becomes of any other place, whether the pass has a report or
    is given up.

    Key theorems:
    - `IsJobOf.isResponseFile`: where a job writes,
    - `passBy_place`: what stands at another place after a pass.
-/

namespace ClangDb

variable {s t made : Store} {p q : Place} {path : Text}

namespace Store

/-- Holds of a place on the way of a path or at its end. -/
def OnWay (s : Store) (path : Text) (p : Place) : Prop :=
  s.LeadsThrough path p ∨ s.locate path = .ok p

theorem KeepsFolders.onWay (h : KeepsFolders s t) (hp : s.OnWay path p) : t.OnWay path p := by
  rcases hp with hthrough | hlocate
  · exact .inl (h.leadsThrough hthrough)
  · exact .inr (h.locate hlocate)

/-- Where only folders are added, what is new is a folder where nothing stood. -/
theorem AddsFolders.new (h : AddsFolders s t) (hp : t.entry? p ≠ s.entry? p) :
    s.entry? p = none ∧ t.entry? p = some .folder := by
  cases hbefore : s.entry? p with
  | some entry =>
    cases entry with
    | folder => exact absurd ((h.keeps.folder p hbefore).trans hbefore.symm) hp
    | file bytes program =>
      exact absurd (((h.files p bytes program).mpr hbefore).trans hbefore.symm) hp
  | none =>
    refine ⟨rfl, ?_⟩
    cases hafter : t.entry? p with
    | none => exact absurd (hafter.trans hbefore.symm) hp
    | some entry =>
      cases entry with
      | folder => rfl
      | file bytes program =>
        rw [(h.files p bytes program).mp hafter] at hbefore
        cases hbefore

end Store

namespace Database

variable {o : Options} {r : Request} {job : Job} {effect : Effect}

/-! ### Response files -/

/-- Holds of the place of a response file. -/
def IsResponseFile (p : Place) : Prop := ∃ above name, p = above ++ [name ++ Text.ofString ".rsp"]

/-- A path with the suffix of response files leads to the place of one. -/
theorem isResponseFile_of_locate (h : s.locate (path ++ Text.ofString ".rsp") = .ok p) :
    IsResponseFile p :=
  Store.locate_append (by decide) (by decide) h

/-- The path of a job has the suffix of response files. -/
theorem IsJobOf.exists_path {file : Text} {c : Command} (h : IsJobOf o file c job) :
    ∃ front, job.path = front ++ Text.ofString ".rsp" := by
  cases h with
  | inline _ =>
    have hflat : ∃ front, flatName file = front ++ Text.ofString ".rsp" := ⟨_, rfl⟩
    obtain ⟨front, hfront⟩ := hflat
    refine ⟨o.outputDir ++ "/" ++ front, ?_⟩
    show o.outputDir ++ "/" ++ flatName file = _
    rw [hfront, ← List.append_assoc]
  | @copy before rest path after _ _ =>
    have hsuffix : ∃ front,
        copySuffix o.dialect (Path.normalize path) = front ++ Text.ofString ".rsp" := by
      have hmem := copySuffix_cases o.dialect (Path.normalize path)
      simp only [List.mem_cons, List.not_mem_nil, or_false] at hmem
      rcases hmem with h | h | h
      · exact ⟨".cl", h⟩
      · exact ⟨".clang", h⟩
      · exact ⟨[], h⟩
    obtain ⟨front, hfront⟩ := hsuffix
    refine ⟨Path.normalize path ++ front, ?_⟩
    show copyName o.dialect (Path.normalize path) = _
    rw [copyName_eq, hfront, List.append_assoc]

/-- **A job writes to the place of a response file.** -/
theorem IsJobOf.isResponseFile {file : Text} {c : Command} {bytes : List UInt8}
    (h : IsJobOf o file c job) (hdoes : job.Does s (.written p bytes)) : IsResponseFile p := by
  obtain ⟨front, hpath⟩ := h.exists_path
  have hlocate := hdoes.place.2.1
  rw [hpath] at hlocate
  exact isResponseFile_of_locate hlocate

/-! ### Other places -/

/-- Holds of stores of which the second has all folders of the first and differs from it in
    response files at most. -/
structure SparesOthers (s t : Store) : Prop where
  keeps : Store.KeepsFolders s t
  others : ∀ p, ¬ IsResponseFile p → t.entry? p = s.entry? p

theorem SparesOthers.refl (s : Store) : SparesOthers s s :=
  ⟨Store.KeepsFolders.refl s, fun _ _ => rfl⟩

theorem SparesOthers.trans {u : Store} (h : SparesOthers s t) (h' : SparesOthers t u) :
    SparesOthers s u :=
  ⟨h.keeps.trans h'.keeps, fun p hp => (h'.others p hp).trans (h.others p hp)⟩

theorem IsJobOf.sparesOthers {file : Text} {c : Command} (h : IsJobOf o file c job)
    (hdoes : job.Does s effect) : SparesOthers s (effect.apply s) := by
  cases effect with
  | failed e => exact SparesOthers.refl s
  | written p bytes =>
    refine ⟨Store.keepsFolders_put hdoes.place.2.2, ?_⟩
    intro q hq
    apply Store.entry?_put_ne
    intro heq
    rw [heq] at hq
    exact hq (h.isResponseFile hdoes)

/-- The jobs of a scan change response files only. -/
theorem sparesOthers_runShared (workers : Int) (order : List Nat) (s : Store) (o : Options)
    (lines : List Text) :
    SparesOthers s (runShared workers order s (scanLines o .initial lines).jobs).1 := by
  apply runShared_keeps SparesOthers.refl SparesOthers.trans
  intro job hjob s effect hdoes
  obtain ⟨c, hc⟩ := exists_isJobOf_of_mem hjob
  exact hc.sparesOthers hdoes

/-- **What stands at the place of no response file stays** in a pass; and where nothing stood,
    nothing does or there is a folder on the way to the output folder. -/
theorem passBy_place (workers : Int) (order : List Nat) (s : Store) (r : Request)
    (hp : ¬ IsResponseFile p) :
    (passBy workers order s r).store.entry? p = s.entry? p ∨
      s.entry? p = none ∧ (passBy workers order s r).store.entry? p = some .folder ∧
        (passBy workers order s r).store.OnWay r.options.outputDir p := by
  by_cases hsame : (passBy workers order s r).store.entry? p = s.entry? p
  · exact .inl hsame
  · right
    rcases passBy_cases workers order s r with ⟨made, e, hstart, hpass⟩ |
      ⟨made, lines, t, result, hstart, hrun, hpass⟩
    · rw [hpass] at hsame ⊢
      obtain ⟨_, _, hnew, _⟩ := passWith_refused hstart
      obtain ⟨hnone, hfolder, hthrough⟩ := hnew p hsame
      exact ⟨hnone, hfolder, .inl hthrough⟩
    · have hstore : (passBy workers order s r).store = t := by
        rw [hpass]
        cases result <;> rfl
      rw [hstore] at hsame ⊢
      obtain ⟨_, _, _, hfolders, _⟩ := start_eq_ok_iff.mp hstart
      have hadds := Store.addsFolders_makeFolders s r.options.outputDir
      rw [hfolders] at hadds
      -- the jobs leave the place as it was when the output folder was there
      have hspares := sparesOthers_runShared workers (order ++ List.range (r.jobs s).length) made
        r.options lines
      rw [hrun] at hspares
      rw [hspares.others p hp] at hsame ⊢
      obtain ⟨hnone, hfolder⟩ := hadds.new hsame
      refine ⟨hnone, hfolder, hspares.keeps.onWay ?_⟩
      exact (Store.onWay_of_makeFolders hfolders hsame).imp_right (·.2)

end Database

end ClangDb
