import ClangDb.Proofs.FileStore.Making

/-! # Making folders a second time

    A folder that was made is there, and making it a second time does nothing.  One
    thing is taken for a made folder that is none.  The last name of a path is not
    made if it is a dot, and nothing is said if what is above it cannot be made
    because a file is in its place.  As long as the file is there, and files are
    written between but none is removed, making the folder fails the second time.

    Key theorems:
    - `makeFolders_of_isFolder`: a folder that is there,
    - `makeFolders_again`: the second time.
-/

namespace ClangDb

namespace Store

variable {s t made : Store} {path : Text} {p : Place} {fuel : Nat}
  {result : Except AccessError Unit}

/-! ### Folders that are there -/

/-- A path that leads somewhere has no folders above it that are to be made first. -/
theorem makeFoldersWith_of_locate (h : s.locate path = .ok p) (fuel : Nat) :
    s.makeFoldersWith path (fuel + 1) = s.makeOne path := by
  have hdescends := descends_of_locate h
  unfold descends at hdescends
  rw [makeFoldersWith_succ, hdescends]
  rfl

/-- **A folder that is there is not made again.** -/
theorem makeFolders_of_isFolder (h : s.isFolder path = true) :
    s.makeFolders path = (s, .ok ()) := by
  obtain ⟨p, hlocate, hfolder⟩ := isFolder_iff.mp h
  show s.makeFoldersWith path (path.length + 1) = (s, .ok ())
  rw [makeFoldersWith_of_locate hlocate, makeOne_of_folder hlocate hfolder]

/-! ### Files that are written between -/

/-- Holds of two stores of which the second has the folders of the first, and files at least
    where the first has files. -/
structure KeepsEntries (s t : Store) : Prop where
  keeps : KeepsFolders s t
  back : KeepsFolders t s
  stays : ∀ p, s.entry? p ≠ none → t.entry? p ≠ none

theorem KeepsEntries.refl (s : Store) : KeepsEntries s s :=
  ⟨KeepsFolders.refl s, KeepsFolders.refl s, fun _ h => h⟩

theorem KeepsEntries.trans {u : Store} (h : KeepsEntries s t) (h' : KeepsEntries t u) :
    KeepsEntries s u :=
  ⟨h.keeps.trans h'.keeps, h'.back.trans h.back, fun p hp => h'.stays p (h.stays p hp)⟩

/-- A file is put where no folder stands. -/
theorem keepsEntries_put {bytes : List UInt8} {program : Option Program}
    (hp : s.entry? p ≠ some .folder) : KeepsEntries s (s.put p (.file bytes program)) := by
  refine ⟨keepsFolders_put hp, keepsFolders_of_put hp, ?_⟩
  intro q hq
  by_cases he : q = p
  · rw [he, entry?_put_self hp]
    simp
  · rwa [entry?_put_ne he]

theorem KeepsEntries.isFolder_eq (h : KeepsEntries s t) (path : Text) :
    t.isFolder path = s.isFolder path := by
  rw [Bool.eq_iff_iff, isFolder_iff, isFolder_iff]
  constructor
  · intro hthere
    obtain ⟨p, hlocate, hfolder⟩ := hthere
    exact ⟨p, h.back.locate hlocate, h.back.folder p hfolder⟩
  · intro hthere
    obtain ⟨p, hlocate, hfolder⟩ := hthere
    exact ⟨p, h.keeps.locate hlocate, h.keeps.folder p hfolder⟩

/-! ### Folders that are not there after all -/

/-- A folder that was made or there is still there, unless a file was in its place. -/
theorem file_of_makeOne (h : s.makeOne path = (made, result)) (hthere : IsThere result)
    (hkeeps : KeepsEntries made t) (hnot : t.isFolder path = false) :
    ∃ p bytes program, t.locate path = .ok p ∧ t.entry? p = some (.file bytes program) := by
  have hnone : ¬ made.isFolder path = true := by
    intro hfolder
    rw [hkeeps.isFolder_eq, hfolder] at hnot
    cases hnot
  have hone := makesOne s path
  rw [h] at hone
  cases hone with
  | @made p hlocate hentry =>
    have hfree := ne_folder_of_none hentry
    have hmade := (keepsFolders_put (e := .folder) hfree).locate hlocate
    exact absurd (isFolder_iff.mpr ⟨p, hmade, entry?_put_self hfree⟩) hnone
  | @there p hlocate hentry => exact absurd (isFolder_iff.mpr ⟨p, hlocate, hentry⟩) hnone
  | @file p bytes program hlocate hentry =>
    have hlocate' := hkeeps.keeps.locate hlocate
    cases hentry' : t.entry? p with
    | none =>
      exact absurd hentry' (hkeeps.stays p (by rw [hentry]; simp))
    | some entry =>
      cases entry with
      | folder =>
        have hfolder := hkeeps.back.folder p hentry'
        exact absurd (isFolder_iff.mpr ⟨p, hlocate, hfolder⟩) hnone
      | file bytes' program' => exact ⟨p, bytes', program', hlocate', hentry'⟩
  | nowhere hlocate => exact absurd hthere (not_isThere_of_locate hlocate)

/-- A file in the place of a folder is a failure, and a bare path reaches it. -/
theorem makeFoldersWith_of_file {bytes : List UInt8} {program : Option Program}
    (hbare : Bare path) (hlocate : t.locate path = .ok p)
    (hentry : t.entry? p = some (.file bytes program)) (fuel : Nat) :
    t.makeFoldersWith path (fuel + 1) = (t, .error (.file ⟨.exists, path⟩)) ∧
      t.reaches path = true := by
  constructor
  · rw [makeFoldersWith_of_locate hlocate, makeOne_of_file hlocate hentry]
  · have hneeds : needsFolder path = false := by
      rw [Bool.eq_false_iff]
      intro hneeds
      rcases hbare with hno | hnames
      · rw [hneeds] at hno
        cases hno
      · -- slashes alone lead to the root
        have hfollow := follow_of_locate hlocate
        rw [hnames, origin_of_no_names hneeds hnames] at hfollow
        obtain rfl := Except.ok.inj hfollow
        cases hentry
    have hfind : t.find path = .ok (.file bytes program) := by
      refine find_eq_ok_iff.mpr ⟨p, hlocate, hentry, ?_⟩
      intro hn
      rw [hneeds] at hn
      cases hn
    unfold reaches
    rw [hfind]
    rfl

/-- A dot behind a path is not made, and not there if it leads nowhere. -/
theorem makeOne_dot (hhead : (parts path).1 ≠ []) (hdot : (parts path).2 = ("." : Text))
    (hnot : t.isFolder path = false) :
    ∃ e, t.makeOne path = (t, .error e) ∧ ¬ IsThere (.error e) := by
  cases hlocate : t.locate path with
  | error e => exact ⟨e, makeOne_of_error hlocate, not_isThere_of_locate hlocate⟩
  | ok p =>
    -- the dot leads to the folder that it is in
    have htail : (parts path).2 ≠ [] := by
      rw [hdot]
      decide
    obtain ⟨q, _, hfolder, henter⟩ := locate_parts hlocate hhead htail
    rw [hdot] at henter
    unfold enter at henter
    rw [hfolder] at henter
    obtain rfl := Except.ok.inj henter
    rw [isFolder_iff.mpr ⟨q, hlocate, hfolder⟩] at hnot
    cases hnot

theorem makeFoldersWith_again (hbare : Bare path)
    (h : s.makeFoldersWith path fuel = (made, result)) (hfuel : path.length < fuel)
    (hthere : IsThere result) (hkeeps : KeepsEntries made t) (hnot : t.isFolder path = false) :
    ∃ e, t.makeFoldersWith path fuel = (t, .error e) ∧
      (t.reaches path = true ∨ ¬ IsThere (.error e)) := by
  induction fuel generalizing s path made result with
  | zero => exact absurd hfuel (Nat.not_lt_zero _)
  | succ fuel ih =>
    have hfile : ∀ {above : Store}, above.makeOne path = (made, result) →
        ∃ e, t.makeFoldersWith path (fuel + 1) = (t, .error e) ∧
          (t.reaches path = true ∨ ¬ IsThere (.error e)) := by
      intro above hone
      obtain ⟨p, bytes, program, hlocate, hentry⟩ := file_of_makeOne hone hthere hkeeps hnot
      obtain ⟨hmakes, hreaches⟩ := makeFoldersWith_of_file hbare hlocate hentry fuel
      exact ⟨_, hmakes, .inl hreaches⟩
    have hmakes := makes s path fuel
    rw [h] at hmakes
    generalize hpair : (made, result) = pair at hmakes
    cases hmakes with
    | here _ => exact hfile hpair.symm
    | below _ _ _ _ => exact hfile hpair.symm
    | stopped _ _ hstopped =>
      obtain ⟨_, rfl⟩ := Prod.mk.inj hpair
      exact absurd hthere hstopped
    | dot hdescends heq habove hdot =>
      obtain ⟨rfl, _⟩ := Prod.mk.inj hpair
      obtain ⟨hhead, htail, _⟩ := descends_iff.mp hdescends
      have hshort : (parts path).1.length < fuel := by
        have := length_parts_lt htail
        omega
      obtain ⟨e, hone, he⟩ := makeOne_dot hhead hdot hnot
      -- the second time the dot is refused, or what is above it
      have hagain := makes t path fuel
      generalize t.makeFoldersWith path (fuel + 1) = pair at hagain
      have hrefused : ∀ {u : Store} {r : Except AccessError Unit}, t.descends path = true →
          t.makeFoldersWith (parts path).1 fuel = (u, r) →
          ∃ e, (u, r) = (t, .error e) ∧ ¬ IsThere (.error e) := by
        intro u r hdescends' heq'
        have hreaches := (descends_iff.mp hdescends').2.2
        have hfolder : t.isFolder (parts path).1 = false := by
          rw [Bool.eq_false_iff]
          intro hfolder
          obtain ⟨q, hlocate, hentry⟩ := isFolder_iff.mp hfolder
          rw [reaches_of_folder hlocate hentry] at hreaches
          cases hreaches
        obtain ⟨e, hmakes, hor⟩ := ih (parts_begins path).2 heq hshort habove hkeeps hfolder
        refine ⟨e, heq'.symm.trans hmakes, ?_⟩
        rcases hor with hyes | hno
        · rw [hreaches] at hyes
          cases hyes
        · exact hno
      cases hagain with
      | here _ => exact ⟨e, hone, .inr he⟩
      | dot hdescends' heq' hthere' _ =>
        obtain ⟨e, hpair', hno⟩ := hrefused hdescends' heq'
        rw [(Prod.mk.inj hpair').2] at hthere'
        exact absurd hthere' hno
      | below hdescends' heq' hthere' _ =>
        obtain ⟨e, hpair', hno⟩ := hrefused hdescends' heq'
        rw [(Prod.mk.inj hpair').2] at hthere'
        exact absurd hthere' hno
      | stopped hdescends' heq' _ =>
        obtain ⟨e, hpair', hno⟩ := hrefused hdescends' heq'
        exact ⟨e, hpair', .inr hno⟩

/-- **The second time nothing is made.**  If the folder is there that was made without a
    failure, it is no failure again; and if it is not there after all, it is one then. -/
theorem makeFolders_again (hbare : Bare path) (h : s.makeFolders path = (made, .ok ()))
    (hkeeps : KeepsEntries made t) :
    (made.isFolder path = true → t.makeFolders path = (t, .ok ())) ∧
      (made.isFolder path = false → ∃ e, t.makeFolders path = (t, .error e)) := by
  rw [← hkeeps.isFolder_eq]
  refine ⟨makeFolders_of_isFolder, ?_⟩
  intro hnot
  obtain ⟨e, hmakes, _⟩ :=
    makeFoldersWith_again hbare h (Nat.lt_succ_self _) (.inl rfl) hkeeps hnot
  exact ⟨e, hmakes⟩

end Store

end ClangDb
