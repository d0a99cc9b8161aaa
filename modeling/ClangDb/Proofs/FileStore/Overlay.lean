import ClangDb.Proofs.FileStore.Suffix

/-! # Stores that differ in some files

    Files that are written in places where no folder stands leave a store that
    differs from the one before at these places only.  The folders are the same
    in both, so paths lead to the same places, and whatever is found at another
    place is found there as before.

    Why a path leads nowhere can change, though.  A path that goes on behind a
    file is refused in another way than one that goes on where nothing stands.
    So a path is written, or refused for the same reason, in both stores if it
    does not lead through one of the places.

    Key theorems:
    - `locate_eq_ok_iff`: what a path that is looked at needs,
    - `Overlays.locate_iff`: paths lead to the same places,
    - `Overlays.find_iff`: what is found elsewhere is the same,
    - `Overlays.writable_eq`: so is what becomes of writing there.
-/

namespace ClangDb

namespace Store

variable {s t : Store} {p q : Place} {path : Text} {names before after : List Text}
  {places : Place → Prop}

/-! ### Places on the way -/

/-- Where a path starts. -/
def origin (s : Store) (path : Text) : Place :=
  if path.startsWith "/" then [] else s.workingDir

/-- Holds of a path and a place to which some of the names on it lead, but not all of
    them. -/
def LeadsThrough (s : Store) (path : Text) (p : Place) : Prop :=
  ∃ before after, namesOn path = before ++ after ∧ after ≠ [] ∧
    s.follow (s.origin path) before = .ok p

theorem follow_of_locate (h : s.locate path = .ok p) :
    s.follow (s.origin path) (namesOn path) = .ok p :=
  (follow_of_walk h).2

/-- Holds of a path and the place to which its names lead, however long the path is. -/
def LeadsTo (s : Store) (path : Text) (p : Place) : Prop :=
  s.follow (s.origin path) (namesOn path) = .ok p

/-- **What a path that is looked at needs**: it has to be one, and not too long. -/
theorem locate_eq_ok_iff : s.locate path = .ok p ↔
    path ≠ [] ∧ Usable path ∧ (Utf8.bytesOf path).length < pathLimit ∧ s.LeadsTo path p := by
  constructor
  · intro h
    have husable : Usable path := usable_of_walk h
    obtain ⟨bytes, hbytes, hwalk⟩ := walk_of_usable s (namesOn path) husable
    refine ⟨(follow_of_walk h).1, husable, ?_, follow_of_locate h⟩
    rw [← (Utf8.encode_eq_ok_iff.mp hbytes).2]
    by_contra hlong
    unfold locate at h
    rw [hwalk, if_pos (not_lt.mp hlong)] at h
    split at h <;> cases h
  · rintro ⟨hne, husable, hshort, hleads⟩
    obtain ⟨bytes, hbytes, hwalk⟩ := walk_of_usable s (namesOn path) husable
    rw [← (Utf8.encode_eq_ok_iff.mp hbytes).2] at hshort
    have hfollow : s.follow (if path.startsWith "/" then [] else s.workingDir) (namesOn path) =
        .ok p := hleads
    unfold locate
    rw [hwalk, if_neg (by simpa using hne), if_neg (not_le.mpr hshort), hfollow]
    rfl

/-- More names are followed from where the first ones lead. -/
theorem follow_append_of_ok (h : s.follow p before = .ok q) (after : List Text) :
    s.follow p (before ++ after) = s.follow q after := by
  induction before generalizing p with
  | nil =>
    obtain rfl := Except.ok.inj h
    rfl
  | cons name before ih =>
    rw [follow] at h
    rw [List.cons_append, follow]
    cases hname : s.enter p name with
    | error e =>
      rw [hname] at h
      cases h
    | ok r =>
      rw [hname] at h
      exact ih h

/-- Nothing but a folder is entered. -/
theorem folder_of_enter {name : Text} (h : s.enter p name = .ok q) :
    s.entry? p = some .folder := by
  unfold enter at h
  split at h
  · cases h
  · cases h
  · assumption

/-- Names that lead somewhere lead through folders, until the last of them is followed. -/
theorem folder_of_follow {r : Place} (h : s.follow p (before ++ after) = .ok r)
    (hbefore : s.follow p before = .ok q) :
    s.entry? q = some .folder ∨ (after = [] ∧ q = r) := by
  rw [follow_append_of_ok hbefore] at h
  cases after with
  | nil => exact .inr ⟨rfl, Except.ok.inj h⟩
  | cons name after =>
    left
    rw [follow] at h
    cases hname : s.enter q name with
    | error e =>
      rw [hname] at h
      cases h
    | ok q' => exact folder_of_enter hname

/-- Holds of names that are neither a dot nor a double dot. -/
def Plain (names : List Text) : Prop :=
  ∀ name ∈ names, name ≠ (("." : String) : Text) ∧ name ≠ ((".." : String) : Text)

instance : DecidablePred Plain := fun _ => inferInstanceAs (Decidable (∀ name ∈ _, _))

/-- Plain names lead down, one place for each. -/
theorem eq_of_follow (hplain : Plain names) (h : s.follow p names = .ok q) :
    q = p ++ names := by
  induction names generalizing p with
  | nil =>
    obtain rfl := Except.ok.inj h
    rw [List.append_nil]
  | cons name names ih =>
    rw [follow] at h
    cases hname : s.enter p name with
    | error e =>
      rw [hname] at h
      cases h
    | ok r =>
      rw [hname] at h
      obtain ⟨hdot, hdots⟩ := hplain name List.mem_cons_self
      have hdown : r = p ++ [name] := by
        rcases eq_of_enter hname with ⟨he, _⟩ | ⟨he, _⟩ | he
        · exact absurd he hdot
        · exact absurd he hdots
        · exact he
      have hmore := ih (fun other hmem => hplain other (List.mem_cons_of_mem _ hmem)) h
      rw [hmore, hdown, List.append_assoc]
      rfl

/-! ### Two stores -/

/-- Holds of two stores that differ at some places only, where neither has a folder. -/
structure Overlays (places : Place → Prop) (s t : Store) : Prop where
  workingDir : t.workingDir = s.workingDir
  same : ∀ p, ¬ places p → t.entry? p = s.entry? p
  noFolder : ∀ p, places p → s.entry? p ≠ some .folder ∧ t.entry? p ≠ some .folder

theorem Overlays.refl (h : ∀ p, places p → s.entry? p ≠ some .folder) :
    Overlays places s s :=
  ⟨rfl, fun _ _ => rfl, fun p hp => ⟨h p hp, h p hp⟩⟩

theorem Overlays.symm (h : Overlays places s t) : Overlays places t s :=
  ⟨h.workingDir.symm, fun p hp => (h.same p hp).symm, fun p hp => (h.noFolder p hp).symm⟩

/-- A file that is put at one of the places changes nothing elsewhere. -/
theorem Overlays.put {bytes : List UInt8} {program : Option Program} (h : Overlays places s t)
    (hp : places p) : Overlays places s (t.put p (.file bytes program)) := by
  constructor
  · exact h.workingDir
  · intro q hq
    have hne : q ≠ p := by
      intro he
      exact hq (he ▸ hp)
    rw [entry?_put_ne hne]
    exact h.same q hq
  · intro q hq
    refine ⟨(h.noFolder q hq).1, ?_⟩
    by_cases he : q = p
    · rw [he, entry?_put_self (h.noFolder p hp).2]
      simp
    · rw [entry?_put_ne he]
      exact (h.noFolder q hq).2

theorem Overlays.keepsFolders (h : Overlays places s t) : KeepsFolders s t := by
  refine ⟨h.workingDir, ?_⟩
  intro q hq
  by_cases hplace : places q
  · exact absurd hq (h.noFolder q hplace).1
  · rw [h.same q hplace]
    exact hq

/-- **Paths lead to the same places in both stores.** -/
theorem Overlays.locate_iff (h : Overlays places s t) :
    t.locate path = .ok q ↔ s.locate path = .ok q :=
  ⟨h.symm.keepsFolders.locate, h.keepsFolders.locate⟩

/-- **What is found under a path that leads elsewhere is the same in both stores.** -/
theorem Overlays.find_iff {e : Entry} (h : Overlays places s t)
    (hpath : ∀ p, s.locate path = .ok p → ¬ places p) :
    t.find path = .ok e ↔ s.find path = .ok e := by
  rw [find_eq_ok_iff, find_eq_ok_iff]
  constructor
  · intro hfound
    obtain ⟨p, hlocate, hentry, hneeds⟩ := hfound
    have hlocate' := h.locate_iff.mp hlocate
    rw [h.same p (hpath p hlocate')] at hentry
    exact ⟨p, hlocate', hentry, hneeds⟩
  · intro hfound
    obtain ⟨p, hlocate, hentry, hneeds⟩ := hfound
    refine ⟨p, h.locate_iff.mpr hlocate, ?_, hneeds⟩
    rw [h.same p (hpath p hlocate)]
    exact hentry

/-! ### Refused paths -/

/-- Names are followed alike, or refused alike, if none but the last leads to one of the
    places. -/
theorem Overlays.follow_eq (h : Overlays places s t)
    (hclear : ∀ before after q, names = before ++ after → after ≠ [] →
      s.follow p before = .ok q → ¬ places q) :
    t.follow p names = s.follow p names := by
  induction names generalizing p with
  | nil => rfl
  | cons name names ih =>
    have hp : ¬ places p := hclear [] (name :: names) p rfl (List.cons_ne_nil _ _) rfl
    have henter : t.enter p name = s.enter p name := by
      unfold enter
      rw [h.same p hp]
    rw [follow, follow, henter]
    cases hname : s.enter p name with
    | error e => rfl
    | ok r =>
      apply ih
      intro before after q hnames hne hfollow
      apply hclear (name :: before) after q _ hne
      · rw [follow, hname]
        exact hfollow
      · rw [hnames, List.cons_append]

theorem Overlays.walk_eq (h : Overlays places s t)
    (hclear : ∀ before after q, names = before ++ after → after ≠ [] →
      s.follow (s.origin path) before = .ok q → ¬ places q) :
    t.walk path names = s.walk path names := by
  have hfollow := h.follow_eq hclear
  unfold origin at hfollow
  unfold walk
  rw [h.workingDir, hfollow]

/-- A path of slashes alone leads to the root. -/
theorem origin_of_no_names (hneeds : needsFolder path = true) (hnames : namesOn path = []) :
    s.origin path = [] := by
  cases path with
  | nil => exact absurd hneeds (by decide)
  | cons c rest =>
    by_cases hc : c = .char '/'
    · subst hc
      rfl
    · -- the first piece of the path is a name
      exfalso
      unfold namesOn Text.splitAt at hnames
      rw [if_neg hc] at hnames
      split at hnames <;> simp at hnames

/-- **A path is written alike, or refused alike, in both stores** if it does not lead through
    one of the places. -/
theorem Overlays.writable_eq (h : Overlays places s t)
    (hclear : ∀ p, s.LeadsThrough path p → ¬ places p) :
    t.writable path = s.writable path := by
  unfold writable
  by_cases hneeds : needsFolder path = true
  · rw [if_pos hneeds, if_pos hneeds]
    have hprefix : ∀ front back, (namesOn path).dropLast = front ++ back →
        namesOn path ≠ [] → ∃ last, namesOn path = front ++ (back ++ [last]) := by
      intro front back hdrop hne
      refine ⟨(namesOn path).getLast hne, ?_⟩
      rw [← List.append_assoc, ← hdrop, List.dropLast_append_getLast]
    by_cases hnames : namesOn path = []
    · -- the root is a folder in both stores
      have hroot : t.walk path [] = s.walk path [] := by
        apply h.walk_eq
        intro before after q hnil hne _
        exact absurd (List.append_eq_nil_iff.mp hnil.symm).2 hne
      rw [hnames, List.dropLast_nil, hroot]
      cases hwalk : s.walk path [] with
      | error e => rfl
      | ok r =>
        have hfollow : s.follow (s.origin path) [] = .ok r := (follow_of_walk hwalk).2
        rw [origin_of_no_names hneeds hnames] at hfollow
        obtain rfl := Except.ok.inj hfollow
        rfl
    · have hwalk : t.walk path (namesOn path).dropLast = s.walk path (namesOn path).dropLast := by
        apply h.walk_eq
        intro before after q hdrop _ hfollow
        obtain ⟨last, hall⟩ := hprefix before after hdrop hnames
        exact hclear q ⟨before, after ++ [last], hall, by simp, hfollow⟩
      rw [hwalk]
      cases hplace : s.walk path (namesOn path).dropLast with
      | error e => rfl
      | ok r =>
        -- the folder above the path is on the way
        obtain ⟨last, hall⟩ := hprefix (namesOn path).dropLast [] (List.append_nil _).symm hnames
        have hr : ¬ places r :=
          hclear r ⟨_, [] ++ [last], hall, by simp, (follow_of_walk hplace).2⟩
        simp only [bind, Except.bind, h.same r hr]
  · rw [if_neg hneeds, if_neg hneeds]
    have hlocate : t.locate path = s.locate path := by
      apply h.walk_eq
      intro before after q hnames hne hfollow
      exact hclear q ⟨before, after, hnames, hne, hfollow⟩
    rw [hlocate]
    cases s.locate path with
    | error e => rfl
    | ok r =>
      have hfolder : t.entry? r = some .folder ↔ s.entry? r = some .folder :=
        ⟨h.symm.keepsFolders.folder r, h.keepsFolders.folder r⟩
      simp only [bind, Except.bind, hfolder]

end Store

end ClangDb
