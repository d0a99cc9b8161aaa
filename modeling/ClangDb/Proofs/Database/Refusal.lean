import ClangDb.Proofs.Database.Workers
import ClangDb.Proofs.FileStore.Making

/-! # Passes that are refused

    A pass is refused because its engine directory is blank, because its input
    cannot be read or because its output folder cannot be made, and each is asked
    only if what comes before is in order.  All that a refused pass has done is to
    try to make the output folder, with the folders above it from the first missing
    one down.

    So no file is written and nothing is removed, and the store is as it was unless
    the first missing folder could be made but not one below it.  What is left then
    are empty folders above the output folder.

    Key theorems:
    - `refusal_of_start`: why a pass is refused,
    - `passWith_refused`: what a refused pass leaves.
-/

namespace ClangDb

namespace Database

variable {s t : Store} {r : Request} {e : PassError}

/-! ### Reasons -/

/-- The error of a pass whose path could not be used: a failure of the store is reported in its
    own way, and a path that is no path at all is not. -/
def refusedBy (report : FileError → PassError) : AccessError → PassError
  | .file e => report e
  | e => .badPath e

/-- Why a pass is refused, and the store that it leaves. -/
inductive Refusal (s : Store) (r : Request) : Store → PassError → Prop where
  | blank : r.engineDir.trim.isEmpty = true → Refusal s r s .noEngineDir
  | unread {cause : AccessError} : r.engineDir.trim.isEmpty = false →
      s.read r.input = .error cause → Refusal s r s (refusedBy (.unreadable r.input) cause)
  | unmade {bytes : List UInt8} {t : Store} {cause : AccessError} :
      r.engineDir.trim.isEmpty = false → s.read r.input = .ok bytes →
      s.makeFolders r.options.outputDir = (t, .error cause) →
      Refusal s r t (refusedBy (.noOutputDir r.options.outputDir) cause)

/-- **A pass that does not start is refused** for one of the reasons. -/
theorem refusal_of_start (h : r.start s = (t, .error e)) : Refusal s r t e := by
  unfold Request.start at h
  cases hengine : r.engineDir.trim.isEmpty with
  | true =>
    rw [if_pos hengine] at h
    obtain ⟨rfl, he⟩ := Prod.mk.inj h
    obtain rfl := Except.error.inj he
    exact .blank hengine
  | false =>
    rw [hengine, if_neg Bool.false_ne_true] at h
    cases hread : s.read r.input with
    | error cause =>
      have hrefused : (s, Except.error (refusedBy (.unreadable r.input) cause)) =
          (t, (.error e : Except PassError (List Text))) := by
        rw [← h, hread]
        cases cause <;> rfl
      obtain ⟨rfl, he⟩ := Prod.mk.inj hrefused
      obtain rfl := Except.error.inj he
      exact .unread hengine hread
    | ok bytes =>
      rw [hread] at h
      cases hfolders : s.makeFolders r.options.outputDir with
      | mk made result =>
        simp only [hfolders] at h
        cases result with
        | ok _ => cases (Prod.mk.inj h).2
        | error cause =>
          have hrefused : (made, Except.error
              (refusedBy (.noOutputDir r.options.outputDir) cause)) =
                (t, (.error e : Except PassError (List Text))) := by
            rw [← h]
            cases cause <;> rfl
          obtain ⟨rfl, he⟩ := Prod.mk.inj hrefused
          obtain rfl := Except.error.inj he
          exact .unmade hengine hread hfolders

/-! ### What is left -/

/-- Holds of a request whose first missing output folder is tried, and can be made. -/
structure Request.MakesFirst (s : Store) (r : Request) : Prop where
  engineDir : r.engineDir.trim.isEmpty = false
  input : ∃ bytes, s.read r.input = .ok bytes
  missing : s.Missing (s.firstFolder r.options.outputDir)

/-- A refused pass keeps all files and folders. -/
theorem Refusal.addsFolders (h : Refusal s r t e) : Store.AddsFolders s t := by
  cases h with
  | blank _ => exact Store.AddsFolders.refl s
  | unread _ _ => exact Store.AddsFolders.refl s
  | unmade _ _ hfolders =>
    have hadds := Store.addsFolders_makeFolders s r.options.outputDir
    rwa [hfolders] at hadds

/-- What is new after a refused pass is on the way to the output folder. -/
theorem Refusal.leadsThrough (h : Refusal s r t e) {p : Place} (hp : t.entry? p ≠ s.entry? p) :
    t.LeadsThrough r.options.outputDir p := by
  cases h with
  | blank _ => exact absurd rfl hp
  | unread _ _ => exact absurd rfl hp
  | unmade _ _ hfolders =>
    rcases Store.onWay_of_makeFolders hfolders hp with hthrough | ⟨hok, _⟩
    · exact hthrough
    · cases hok

/-- **A refused pass leaves the store as it was exactly if no folder could be made.** -/
theorem Refusal.unchanged_iff (h : Refusal s r t e) : t = s ↔ ¬ r.MakesFirst s := by
  cases h with
  | blank hengine =>
    refine ⟨fun _ hfirst => ?_, fun _ => rfl⟩
    rw [hfirst.engineDir] at hengine
    cases hengine
  | unread _ hread =>
    refine ⟨fun _ hfirst => ?_, fun _ => rfl⟩
    obtain ⟨bytes, hok⟩ := hfirst.input
    rw [hread] at hok
    cases hok
  | unmade hengine hread hfolders =>
    have hmissing := Store.makeFolders_missing s r.options.outputDir
    rw [hfolders] at hmissing
    constructor
    · intro hsame hfirst
      exact hmissing.mp hsame hfirst.missing
    · intro hnot
      exact hmissing.mpr fun hfirst => hnot ⟨hengine, ⟨_, hread⟩, hfirst⟩

/-- **What a refused pass leaves**, however many workers it has.  All files and folders are as
    they were, and what is new are folders above the output folder.  There are such exactly if
    the engine directory is not blank, the input can be read and the first missing folder on
    the way can be made. -/
theorem passWith_refused (h : r.start s = (t, .error e)) :
    (∀ workers order, passWith workers order s r = some ⟨t, [], .error e⟩) ∧
      Store.AddsFolders s t ∧
      (∀ p, t.entry? p ≠ s.entry? p → s.entry? p = none ∧ t.entry? p = some .folder ∧
        t.LeadsThrough r.options.outputDir p) ∧
      (t = s ↔ ¬ r.MakesFirst s) := by
  have hrefusal := refusal_of_start h
  have hadds := hrefusal.addsFolders
  refine ⟨passWith_of_start h, hadds, ?_, hrefusal.unchanged_iff⟩
  · intro p hp
    -- folders and files stay, so nothing was there, and what is there now is no file
    have hnone : s.entry? p = none := by
      cases hentry : s.entry? p with
      | none => rfl
      | some entry =>
        cases entry with
        | folder => exact absurd ((hadds.keeps.folder p hentry).trans hentry.symm) hp
        | file bytes program =>
          exact absurd (((hadds.files p bytes program).mpr hentry).trans hentry.symm) hp
    have hfolder : t.entry? p = some .folder := by
      cases hentry : t.entry? p with
      | none => exact absurd (hentry.trans hnone.symm) hp
      | some entry =>
        cases entry with
        | folder => rfl
        | file bytes program =>
          rw [(hadds.files p bytes program).mp hentry] at hnone
          cases hnone
    exact ⟨hnone, hfolder, hrefusal.leadsThrough hp⟩

/-- A path whose last name is too long, in a folder. -/
def longFolder : Text := Text.ofString "a/" ++ List.replicate 256 (CodePoint.char 'b')

/-- A pass that is to make it. -/
def longRequest : Request := { inputRequest with outputDir := longFolder }

/-- Where the folder above is missing it is made, and then the pass is refused because of the
    long name. -/
theorem passWith_refused_sample :
    ∃ t, longRequest.start (storeOf [] []) =
        (t, .error (.noOutputDir longFolder ⟨.nameTooLong, longFolder⟩)) ∧
      (∀ workers order, passWith workers order (storeOf [] []) longRequest =
        some ⟨t, [], .error (.noOutputDir longFolder ⟨.nameTooLong, longFolder⟩)⟩) ∧
      t.entry? ["a"] = some .folder ∧ longRequest.MakesFirst (storeOf [] []) := by
  have hresult : (longRequest.start (storeOf [] [])).2 =
      .error (.noOutputDir longFolder ⟨.nameTooLong, longFolder⟩) := by decide +kernel
  have hfolder : Store.entry? (longRequest.start (storeOf [] [])).1 ["a"] = some .folder := by
    decide +kernel
  cases hstart : longRequest.start (storeOf [] []) with
  | mk t result =>
    rw [hstart] at hresult hfolder
    obtain rfl : result = _ := hresult
    obtain ⟨hpass, _, _, hunchanged⟩ := passWith_refused hstart
    refine ⟨t, rfl, hpass, hfolder, ?_⟩
    -- the store is not as it was, for the folder was not there
    by_contra hnot
    have hnew : Store.entry? (storeOf [] []) ["a"] = some .folder := hunchanged.mpr hnot ▸ hfolder
    exact absurd hnew (by decide)

end Database

end ClangDb
