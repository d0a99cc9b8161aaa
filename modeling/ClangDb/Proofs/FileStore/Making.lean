import ClangDb.Proofs.FileStore.Parts

/-! # Making folders, step by step

    Folders are made from the first missing one down.  What becomes of one of them
    is decided by where its path leads: the folder is made where nothing stands,
    nothing is done where a folder stands, and a file in its place or a path that
    leads nowhere is a failure.  A last name that is a dot is not made at all.

    So a failure leaves the folders above the one that could not be made, and the
    store is as it was exactly if the first missing folder could not be made.

    Key theorems:
    - `makesOne`, `makes`: what making folders does, by cases,
    - `isFolder_of_makeFolders`: what is there when they are made,
    - `onWay_of_makeFolders`: where folders are made,
    - `makeFolders_missing`: when none is made.
-/

namespace ClangDb

namespace Store

variable {s t : Store} {path : Text} {p : Place} {fuel : Nat} {result : Except AccessError Unit}

/-! ### One folder -/

theorem makeOne_of_none (hlocate : s.locate path = .ok p) (hentry : s.entry? p = none) :
    s.makeOne path = (s.put p .folder, .ok ()) := by
  simp only [makeOne, makeFolder, hlocate, bind, Except.bind, hentry]

theorem makeOne_of_folder (hlocate : s.locate path = .ok p)
    (hentry : s.entry? p = some .folder) : s.makeOne path = (s, .ok ()) := by
  simp only [makeOne, makeFolder, isFolder, find, hlocate, bind, Except.bind, hentry, if_true]

theorem makeOne_of_file {bytes : List UInt8} {program : Option Program}
    (hlocate : s.locate path = .ok p) (hentry : s.entry? p = some (.file bytes program)) :
    s.makeOne path = (s, .error (.file ⟨.exists, path⟩)) := by
  simp only [makeOne, makeFolder, isFolder, find, hlocate, bind, Except.bind, hentry]
  cases needsFolder path <;> rfl

theorem makeOne_of_error {e : AccessError} (hlocate : s.locate path = .error e) :
    s.makeOne path = (s, .error e) := by
  unfold makeOne makeFolder isFolder find
  rw [hlocate]
  cases e <;> rfl

/-- What making one folder does, by where its path leads. -/
inductive MakesOne (s : Store) (path : Text) : Store × Except AccessError Unit → Prop where
  | made {p : Place} : s.locate path = .ok p → s.entry? p = none →
      MakesOne s path (s.put p .folder, .ok ())
  | there {p : Place} : s.locate path = .ok p → s.entry? p = some .folder →
      MakesOne s path (s, .ok ())
  | file {p : Place} {bytes : List UInt8} {program : Option Program} : s.locate path = .ok p →
      s.entry? p = some (.file bytes program) →
      MakesOne s path (s, .error (.file ⟨.exists, path⟩))
  | nowhere {e : AccessError} : s.locate path = .error e → MakesOne s path (s, .error e)

/-- **One folder is made, is there, or cannot be made.** -/
theorem makesOne (s : Store) (path : Text) : MakesOne s path (s.makeOne path) := by
  cases hlocate : s.locate path with
  | error e =>
    rw [makeOne_of_error hlocate]
    exact .nowhere hlocate
  | ok p =>
    cases hentry : s.entry? p with
    | none =>
      rw [makeOne_of_none hlocate hentry]
      exact .made hlocate hentry
    | some entry =>
      cases entry with
      | folder =>
        rw [makeOne_of_folder hlocate hentry]
        exact .there hlocate hentry
      | file bytes program =>
        rw [makeOne_of_file hlocate hentry]
        exact .file hlocate hentry

theorem ne_exists_of_enter {name : Text} {cause : FileCause}
    (h : s.enter p name = .error cause) : cause ≠ .exists := by
  intro he
  subst he
  unfold enter at h
  split at h
  · cases h
  · cases h
  · split at h
    · cases h
    · split at h
      · cases h
      · split at h
        · split at h <;> cases h
        · cases h

theorem ne_exists_of_follow {names : List Text} {cause : FileCause}
    (h : s.follow p names = .error cause) : cause ≠ .exists := by
  induction names generalizing p with
  | nil => cases h
  | cons name names ih =>
    rw [follow] at h
    cases henter : s.enter p name with
    | ok q =>
      rw [henter] at h
      exact ih h
    | error other =>
      rw [henter] at h
      obtain rfl := Except.error.inj h
      exact ne_exists_of_enter henter

/-- **No path leads nowhere because something is there.** -/
theorem not_isThere_of_locate {e : AccessError} (h : s.locate path = .error e) :
    ¬ IsThere (.error e) := by
  intro hthere
  rcases hthere with hok | ⟨other, hexists⟩
  · cases hok
  · obtain rfl := Except.error.inj hexists
    have husable : Usable path := by
      apply (isAnswer_walk_iff (s := s) (namesOn path)).mp
      show IsAnswer (s.locate path)
      rw [h]
      trivial
    obtain ⟨bytes, _, hwalk⟩ := walk_of_usable s (namesOn path) husable
    unfold locate at h
    rw [hwalk] at h
    split at h
    · cases h
    · split at h
      · cases h
      · cases hfollow : s.follow (if path.startsWith "/" then [] else s.workingDir)
            (namesOn path) with
        | ok q =>
          rw [hfollow] at h
          cases h
        | error cause =>
          rw [hfollow] at h
          injection Except.error.inj h with hfile
          injection hfile with hcause
          exact ne_exists_of_follow hfollow hcause

/-! ### All folders -/

/-- Whether the folders above a path are made first. -/
def descends (s : Store) (path : Text) : Bool :=
  !(parts path).1.isEmpty && !(parts path).2.isEmpty && !s.reaches (parts path).1

theorem descends_iff :
    s.descends path = true ↔
      (parts path).1 ≠ [] ∧ (parts path).2 ≠ [] ∧ s.reaches (parts path).1 = false := by
  simp [descends, and_assoc]

/-- What making folders does, with one unit of fuel more: the last one is made if those above
    it are there or were made, unless its name is a dot. -/
inductive Makes (s : Store) (path : Text) (fuel : Nat) :
    Store × Except AccessError Unit → Prop where
  | here : s.descends path = false → Makes s path fuel (s.makeOne path)
  | dot {above : Store} {result : Except AccessError Unit} : s.descends path = true →
      s.makeFoldersWith (parts path).1 fuel = (above, result) → IsThere result →
      (parts path).2 = ("." : Text) → Makes s path fuel (above, .ok ())
  | below {above : Store} {result : Except AccessError Unit} : s.descends path = true →
      s.makeFoldersWith (parts path).1 fuel = (above, result) → IsThere result →
      (parts path).2 ≠ ("." : Text) → Makes s path fuel (above.makeOne path)
  | stopped {above : Store} {e : AccessError} : s.descends path = true →
      s.makeFoldersWith (parts path).1 fuel = (above, .error e) → ¬ IsThere (.error e) →
      Makes s path fuel (above, .error e)

/-- **What making folders does**, by cases. -/
theorem makes (s : Store) (path : Text) (fuel : Nat) :
    Makes s path fuel (s.makeFoldersWith path (fuel + 1)) := by
  rw [makeFoldersWith_succ]
  by_cases hdescends : s.descends path = true
  · have hcond := hdescends
    unfold descends at hcond
    rw [if_pos hcond]
    split
    · next above e heq =>
      split
      · next q =>
        have hthere : IsThere (.error (.file ⟨.exists, q⟩)) := .inr ⟨q, rfl⟩
        rw [if_pos rfl]
        by_cases hdot : (parts path).2 = ("." : Text)
        · rw [if_pos hdot]
          exact .dot hdescends heq hthere hdot
        · rw [if_neg hdot]
          exact .below hdescends heq hthere hdot
      · next hne =>
        rw [if_neg (by simp)]
        apply Makes.stopped hdescends heq
        intro hthere
        rcases hthere with hok | ⟨q, hexists⟩
        · cases hok
        · exact hne q (Except.error.inj hexists)
    · next above heq =>
      by_cases hdot : (parts path).2 = ("." : Text)
      · rw [if_pos hdot]
        exact .dot hdescends heq (.inl rfl) hdot
      · rw [if_neg hdot]
        exact .below hdescends heq (.inl rfl) hdot
  · have hcond := hdescends
    unfold descends at hcond
    rw [if_neg hcond]
    exact .here (by simpa using hdescends)

theorem isFolder_iff :
    s.isFolder path = true ↔ ∃ p, s.locate path = .ok p ∧ s.entry? p = some .folder := by
  have hfind : s.isFolder path = true ↔ s.find path = .ok .folder := by
    unfold isFolder
    constructor
    · intro h
      split at h
      · assumption
      · cases h
    · intro h
      rw [h]
  rw [hfind, find_eq_ok_iff]
  constructor
  · intro h
    obtain ⟨p, hlocate, hentry, _⟩ := h
    exact ⟨p, hlocate, hentry⟩
  · intro h
    obtain ⟨p, hlocate, hentry⟩ := h
    exact ⟨p, hlocate, hentry, fun _ => rfl⟩

theorem reaches_of_folder (hlocate : s.locate path = .ok p)
    (hentry : s.entry? p = some .folder) : s.reaches path = true := by
  have hfind : s.find path = .ok .folder :=
    find_eq_ok_iff.mpr ⟨p, hlocate, hentry, fun _ => rfl⟩
  unfold reaches
  rw [hfind]
  rfl

/-- If a path leads somewhere, no folder above it is missing. -/
theorem descends_of_locate (h : s.locate path = .ok p) : s.descends path = false := by
  rw [Bool.eq_false_iff]
  intro hdescends
  obtain ⟨hhead, htail, hreaches⟩ := descends_iff.mp hdescends
  obtain ⟨q, hlocate, hfolder, _⟩ := locate_parts h hhead htail
  rw [reaches_of_folder hlocate hfolder] at hreaches
  cases hreaches

/-- **A folder that is made without a failure is there**, unless the last name of its path is a
    dot. -/
theorem isFolder_of_makeFolders (h : s.makeFolders path = (t, .ok ()))
    (hdot : (namesOn path).getLast? ≠ some ("." : Text)) : t.isFolder path = true := by
  have hone : ∀ {above : Store}, (t, .ok ()) = above.makeOne path → t.isFolder path = true := by
    intro above heq
    have hone := makesOne above path
    rw [← heq] at hone
    cases hone with
    | made hlocate hentry =>
      have hfree := ne_folder_of_none hentry
      exact isFolder_iff.mpr ⟨_, (keepsFolders_put hfree).locate hlocate, entry?_put_self hfree⟩
    | there hlocate hentry => exact isFolder_iff.mpr ⟨_, hlocate, hentry⟩
  have hmakes := makes s path path.length
  rw [show s.makeFoldersWith path (path.length + 1) = (t, .ok ()) from h] at hmakes
  generalize hpair : (t, Except.ok ()) = pair at hmakes
  cases hmakes with
  | here _ => exact hone hpair
  | below _ _ _ _ => exact hone hpair
  | stopped _ _ _ => cases (Prod.mk.inj hpair).2
  | dot hdescends _ _ hname =>
    have hnames := namesOn_parts (descends_iff.mp hdescends).2.1
    rw [hnames, hname, List.getLast?_concat] at hdot
    exact absurd rfl hdot

/-! ### Where folders are made -/

/-- Nothing changes but where a folder is made. -/
theorem locate_of_makeOne (h : s.makeOne path = (t, result))
    (hp : t.entry? p ≠ s.entry? p) : result = .ok () ∧ t.locate path = .ok p := by
  have hone := makesOne s path
  rw [h] at hone
  cases hone with
  | @made q hlocate hentry =>
    have hq : p = q := by
      by_contra hne
      exact hp (entry?_put_ne hne)
    rw [hq]
    exact ⟨rfl, (keepsFolders_put (ne_folder_of_none hentry)).locate hlocate⟩
  | there _ _ => exact absurd rfl hp
  | file _ _ => exact absurd rfl hp
  | nowhere _ => exact absurd rfl hp

/-- A place on the way of the part above is passed on the way of the path. -/
theorem leadsThrough_of_parts (hhead : (parts path).1 ≠ []) (htail : (parts path).2 ≠ [])
    (h : s.LeadsThrough (parts path).1 p ∨ s.locate (parts path).1 = .ok p) :
    s.LeadsThrough path p := by
  have hnames := namesOn_parts htail
  have horigin := origin_of_begins (s := s) (parts_begins path).1 hhead
  rcases h with ⟨before, after, hsplit, _, hfollow⟩ | hlocate
  · rw [hsplit, List.append_assoc] at hnames
    rw [horigin] at hfollow
    exact ⟨before, after ++ [(parts path).2], hnames, by simp, hfollow⟩
  · have hfollow := follow_of_locate hlocate
    rw [horigin] at hfollow
    exact ⟨_, [(parts path).2], hnames, by simp, hfollow⟩

theorem KeepsFolders.leadsThrough (h : KeepsFolders s t) (hp : s.LeadsThrough path p) :
    t.LeadsThrough path p := by
  obtain ⟨before, after, hnames, hne, hfollow⟩ := hp
  refine ⟨before, after, hnames, hne, ?_⟩
  unfold origin at hfollow ⊢
  rw [h.workingDir]
  exact h.follow hfollow

theorem onWay_of_makeFoldersWith (h : s.makeFoldersWith path fuel = (t, result))
    (hp : t.entry? p ≠ s.entry? p) :
    t.LeadsThrough path p ∨ result = .ok () ∧ t.locate path = .ok p := by
  induction fuel generalizing s path t result with
  | zero =>
    obtain ⟨rfl, _⟩ := Prod.mk.inj h
    exact absurd rfl hp
  | succ fuel ih =>
    -- what was made above stays on the way, whatever becomes of the last folder
    have habove : ∀ {above : Store} {r : Except AccessError Unit}, s.descends path = true →
        s.makeFoldersWith (parts path).1 fuel = (above, r) → above.entry? p ≠ s.entry? p →
        above.LeadsThrough path p := by
      intro above r hdescends heq hchanged
      obtain ⟨hhead, htail, _⟩ := descends_iff.mp hdescends
      exact leadsThrough_of_parts hhead htail ((ih heq hchanged).imp_right (·.2))
    have hmakes := makes s path fuel
    rw [h] at hmakes
    generalize hpair : (t, result) = pair at hmakes
    cases hmakes with
    | here _ => exact .inr (locate_of_makeOne hpair.symm hp)
    | dot hdescends heq _ _ =>
      obtain ⟨rfl, _⟩ := Prod.mk.inj hpair
      exact .inl (habove hdescends heq hp)
    | @below above r hdescends heq _ _ =>
      by_cases hchanged : above.entry? p = s.entry? p
      · rw [← hchanged] at hp
        exact .inr (locate_of_makeOne hpair.symm hp)
      · have hadds := addsFolders_makeOne above path
        rw [← hpair] at hadds
        exact .inl (hadds.keeps.leadsThrough (habove hdescends heq hchanged))
    | stopped hdescends heq _ =>
      obtain ⟨rfl, _⟩ := Prod.mk.inj hpair
      exact .inl (habove hdescends heq hp)

/-- **Folders are made on the way of a path**, and at its end only if that is no failure. -/
theorem onWay_of_makeFolders (h : s.makeFolders path = (t, result))
    (hp : t.entry? p ≠ s.entry? p) :
    t.LeadsThrough path p ∨ result = .ok () ∧ t.locate path = .ok p :=
  onWay_of_makeFoldersWith h hp

/-! ### The first folder -/

/-- The path of the folder that is made first, or cannot be made. -/
def firstWith (s : Store) (path : Text) : (fuel : Nat) → Text
  | 0 => path
  | fuel + 1 => if s.descends path then firstWith s (parts path).1 fuel else path

/-- The first missing folder on the way of a path, or the last one. -/
def firstFolder (s : Store) (path : Text) : Text := s.firstWith path (path.length + 1)

/-- Holds of a path to a place where nothing stands. -/
def Missing (s : Store) (path : Text) : Prop := ∃ p, s.locate path = .ok p ∧ s.entry? p = none

theorem Missing.entry?_eq (h : s.Missing path) (hlocate : s.locate path = .ok p) :
    s.entry? p = none := by
  obtain ⟨q, hq, hnone⟩ := h
  obtain rfl := Except.ok.inj (hlocate.symm.trans hq)
  exact hnone

/-- One folder is made exactly if it is missing. -/
theorem makeOne_missing (s : Store) (path : Text) :
    (s.Missing path → ∃ p, s.entry? p = none ∧ Store.entry? (s.makeOne path).1 p = some .folder) ∧
      (¬ s.Missing path → (s.makeOne path).1 = s) := by
  have hone := makesOne s path
  generalize s.makeOne path = pair at hone
  cases hone with
  | @made p hlocate hentry =>
    exact ⟨fun _ => ⟨p, hentry, entry?_put_self (ne_folder_of_none hentry)⟩,
      fun hnot => absurd ⟨p, hlocate, hentry⟩ hnot⟩
  | there hlocate hentry =>
    refine ⟨?_, fun _ => rfl⟩
    intro hmissing
    rw [hmissing.entry?_eq hlocate] at hentry
    cases hentry
  | file hlocate hentry =>
    refine ⟨?_, fun _ => rfl⟩
    intro hmissing
    rw [hmissing.entry?_eq hlocate] at hentry
    cases hentry
  | nowhere hlocate =>
    refine ⟨?_, fun _ => rfl⟩
    intro hmissing
    obtain ⟨q, hq, _⟩ := hmissing
    rw [hlocate] at hq
    cases hq

theorem makeFoldersWith_missing (hfuel : path.length < fuel) :
    (s.Missing (s.firstWith path fuel) →
      ∃ p, s.entry? p = none ∧ Store.entry? (s.makeFoldersWith path fuel).1 p = some .folder) ∧
    (¬ s.Missing (s.firstWith path fuel) → (s.makeFoldersWith path fuel).1 = s) := by
  induction fuel generalizing path with
  | zero => exact absurd hfuel (Nat.not_lt_zero _)
  | succ fuel ih =>
    cases hdescends : s.descends path with
    | false =>
      have hfirst : s.firstWith path (fuel + 1) = path := by
        rw [firstWith, hdescends]
        rfl
      rw [hfirst, makeFoldersWith_succ]
      unfold descends at hdescends
      rw [hdescends]
      exact makeOne_missing s path
    | true =>
      obtain ⟨_, htail, _⟩ := descends_iff.mp hdescends
      have hfirst : s.firstWith path (fuel + 1) = s.firstWith (parts path).1 fuel := by
        rw [firstWith, hdescends]
        rfl
      have hshort : (parts path).1.length < fuel := by
        have := length_parts_lt htail
        omega
      obtain ⟨hmade, hnone⟩ := ih hshort
      rw [hfirst]
      -- a folder that is made above stays, and where none is made the last one is not either
      have hstays : ∀ {above : Store} {r : Except AccessError Unit} {t : Store},
          s.makeFoldersWith (parts path).1 fuel = (above, r) → AddsFolders above t →
          s.Missing (s.firstWith (parts path).1 fuel) →
          ∃ p, s.entry? p = none ∧ t.entry? p = some .folder := by
        intro above r t heq hadds hmissing
        obtain ⟨p, hp, hfolder⟩ := hmade hmissing
        rw [heq] at hfolder
        exact ⟨p, hp, hadds.keeps.folder p hfolder⟩
      have hsame : ∀ {above : Store} {r : Except AccessError Unit},
          s.makeFoldersWith (parts path).1 fuel = (above, r) →
          ¬ s.Missing (s.firstWith (parts path).1 fuel) → above = s := by
        intro above r heq hmissing
        have hstore := hnone hmissing
        rwa [heq] at hstore
      have hmakes := makes s path fuel
      generalize s.makeFoldersWith path (fuel + 1) = pair at hmakes
      cases hmakes with
      | here hnot =>
        rw [hdescends] at hnot
        cases hnot
      | dot _ heq _ _ => exact ⟨hstays heq (AddsFolders.refl _), hsame heq⟩
      | @below above r _ heq _ _ =>
        refine ⟨hstays heq (addsFolders_makeOne above path), ?_⟩
        intro hmissing
        rw [hsame heq hmissing]
        apply (makeOne_missing s path).2
        intro hlast
        obtain ⟨p, hlocate, _⟩ := hlast
        rw [descends_of_locate hlocate] at hdescends
        cases hdescends
      | stopped _ heq _ => exact ⟨hstays heq (AddsFolders.refl _), hsame heq⟩

/-- **No folder is made exactly if the first one is not missing**: it is there, or a file is in
    its place, or its path leads nowhere. -/
theorem makeFolders_missing (s : Store) (path : Text) :
    (s.makeFolders path).1 = s ↔ ¬ s.Missing (s.firstFolder path) := by
  obtain ⟨hmade, hnone⟩ := makeFoldersWith_missing (s := s) (Nat.lt_succ_self path.length)
  constructor
  · intro hsame hmissing
    obtain ⟨p, hp, hfolder⟩ := hmade hmissing
    rw [show (s.makeFoldersWith path (path.length + 1)).1 = s from hsame, hp] at hfolder
    cases hfolder
  · exact hnone

end Store

end ClangDb
