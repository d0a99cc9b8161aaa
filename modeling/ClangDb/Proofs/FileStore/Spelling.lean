import ClangDb.Proofs.FileStore.Making
import ClangDb.Proofs.Path.Separator

/-! # Spellings of a path

    A path can be spelled in several ways.  Empty names and single dots lead nowhere,
    so a path leads to the same folder when it is read and written again, and when each
    run of slashes in it is written as one.  The length of the text does not count
    here: a spelling may be too long to be used while another one is not.

    A backslash is no separator to the store but a part of a name.  So a path with a
    backslash leads to a folder only if there is one with such a name, and none is
    made by the paths that are written with slashes alone.

    Key theorems:
    - `Path.ofText_toText`: a path that is written is read as it was,
    - `leadsTo_ofText`: a path that is read and written again,
    - `leadsTo_normalize`: a path without backslashes that is normalized,
    - `LeadsDown.join`: what a name behind a path leads to,
    - `resolve_of_locate`: places that are told by the names alone,
    - `not_leadsTo_of_backslash`, `BackslashFree.makeFolders`: backslashes.
-/

namespace ClangDb

/-! ### Names -/

namespace Store

theorem not_mem_splitAt {sep : CodePoint} {t piece : Text} (h : piece ∈ Text.splitAt sep t) :
    sep ∉ piece := by
  induction t generalizing piece with
  | nil =>
    obtain rfl := List.mem_singleton.mp h
    exact List.not_mem_nil
  | cons c t ih =>
    unfold Text.splitAt at h
    by_cases hc : c = sep
    · rw [if_pos hc] at h
      rcases List.mem_cons.mp h with rfl | h
      · exact List.not_mem_nil
      · exact ih h
    · rw [if_neg hc] at h
      cases hpieces : Text.splitAt sep t with
      | nil =>
        rw [hpieces] at h
        obtain rfl := List.mem_singleton.mp h
        simpa using Ne.symm hc
      | cons first pieces =>
        rw [hpieces] at h ih
        rcases List.mem_cons.mp h with rfl | h
        · have hfirst := ih List.mem_cons_self
          simp [hfirst, Ne.symm hc]
        · exact ih (List.mem_cons_of_mem _ h)

theorem mem_splitAt {sep c : CodePoint} (hc : c ≠ sep) (t : Text) :
    (∃ piece ∈ Text.splitAt sep t, c ∈ piece) ↔ c ∈ t := by
  induction t with
  | nil => simp [Text.splitAt]
  | cons d t ih =>
    rw [List.mem_cons, ← ih, Text.splitAt]
    by_cases hd : d = sep
    · rw [if_pos hd]
      have hne : c ≠ d := fun he => hc (he.trans hd)
      simp [hne]
    · rw [if_neg hd]
      cases Text.splitAt sep t with
      | nil => simp
      | cons first pieces => simp [or_assoc]

/-- A code point other than the slash stands in a path exactly if it stands in a name. -/
theorem mem_namesOn {path : Text} {c : CodePoint} (hc : c ≠ .char '/') :
    (∃ name ∈ namesOn path, c ∈ name) ↔ c ∈ path := by
  rw [← mem_splitAt hc path]
  constructor
  · rintro ⟨name, hname, hmem⟩
    exact ⟨name, (List.mem_filter.mp hname).1, hmem⟩
  · rintro ⟨name, hname, hmem⟩
    refine ⟨name, List.mem_filter.mpr ⟨hname, ?_⟩, hmem⟩
    simpa using List.ne_nil_of_mem hmem

theorem usable_iff_namesOn {path : Text} : Usable path ↔ ∀ name ∈ namesOn path, Usable name := by
  constructor
  · intro h name hname c hc
    by_cases hslash : c = .char '/'
    · rw [hslash]
      exact ⟨by decide, rfl⟩
    · exact h c ((mem_namesOn hslash).mp ⟨name, hname, hc⟩)
  · intro h c hc
    by_cases hslash : c = .char '/'
    · rw [hslash]
      exact ⟨by decide, rfl⟩
    · obtain ⟨name, hname, hmem⟩ := (mem_namesOn hslash).mpr hc
      exact h name hname c hmem

theorem namesOn_slash_cons (path : Text) : namesOn (.char '/' :: path) = namesOn path := by
  rw [← List.nil_append (CodePoint.char '/' :: path), namesOn_append_slash]
  rfl

/-- Names that are written with slashes between them are read back. -/
theorem namesOn_join {names : List Text} (h : ∀ name ∈ names, name ≠ [] ∧ .char '/' ∉ name) :
    namesOn (Text.join "/" names) = names := by
  induction names with
  | nil => rfl
  | cons name names ih =>
    obtain ⟨hne, hslash⟩ := h name List.mem_cons_self
    have hone : namesOn name = [name] := by rw [namesOn_of_not_mem hslash, if_neg hne]
    cases names with
    | nil => exact hone
    | cons next names =>
      have hmore := ih fun other hmem => h other (List.mem_cons_of_mem _ hmem)
      show namesOn (name ++ "/" ++ Text.join "/" (next :: names)) = _
      rw [List.append_assoc]
      show namesOn (name ++ .char '/' :: Text.join "/" (next :: names)) = _
      rw [namesOn_append_slash, hone, hmore]
      rfl

end Store

namespace Path

open Store (namesOn)

variable {p q : Path} {t : Text}

/-- Holds of a path whose names could name something: they are not empty, and they are no
    single dots and have no slashes in them. -/
def IsProper (p : Path) : Prop :=
  ∀ name ∈ p.names, name ≠ [] ∧ .char '/' ∉ name ∧ name ≠ (("." : String) : Text)

theorem namesOf_eq (t : Text) :
    namesOf t = (namesOn t).filter (· ≠ (("." : String) : Text)) := by
  unfold namesOf namesOn
  rw [List.filter_filter]
  congr 1
  funext name
  simp [Bool.and_comm]

theorem isProper_ofText (t : Text) : IsProper (ofText t) := by
  intro name hname
  have hname : name ∈ namesOf t := hname
  obtain ⟨hpiece, hkept⟩ := List.mem_filter.mp hname
  have hkept := of_decide_eq_true hkept
  exact ⟨hkept.1, Store.not_mem_splitAt hpiece, hkept.2⟩

theorem IsProper.append (hp : IsProper p) (hq : IsProper q) : IsProper (p.append q) := by
  unfold Path.append
  split
  · intro name hname
    rcases List.mem_append.mp hname with h | h
    · exact hp name h
    · exact hq name h
  · exact hq

theorem IsProper.join (hp : IsProper p) (t : Text) : IsProper (p.join t) :=
  hp.append (isProper_ofText t)

theorem IsProper.parent (hp : IsProper p) : IsProper p.parent :=
  fun name hname => hp name (List.dropLast_subset _ hname)

theorem exists_join_concat (names : List Text) (name : Text) :
    ∃ front, Text.join "/" (names ++ [name]) = front ++ name := by
  induction names with
  | nil => exact ⟨[], rfl⟩
  | cons first names ih =>
    obtain ⟨front, hfront⟩ := ih
    refine ⟨first ++ "/" ++ front, ?_⟩
    rw [List.append_assoc, ← hfront]
    cases names <;> rfl

theorem toText_of_names (h : p.names ≠ []) :
    p.toText = anchorText p.anchor ++ Text.join "/" p.names := by
  unfold toText
  split
  · next hnil => exact absurd hnil h
  · rfl

theorem namesOn_anchorText_append (a : Anchor) (t : Text) :
    namesOn (anchorText a ++ t) = namesOn t := by
  cases a with
  | relative => rfl
  | root => exact Store.namesOn_slash_cons t
  | doubleRoot => exact (Store.namesOn_slash_cons _).trans (Store.namesOn_slash_cons t)

/-- **A path with names is read back as it was written.** -/
theorem namesOn_toText (h : IsProper p) (hne : p.names ≠ []) : namesOn p.toText = p.names := by
  rw [toText_of_names hne, namesOn_anchorText_append]
  exact Store.namesOn_join fun name hname => ⟨(h name hname).1, (h name hname).2.1⟩

/-- A path without names is written as a dot or as slashes. -/
theorem namesOf_toText (h : IsProper p) : namesOf p.toText = p.names := by
  rw [namesOf_eq]
  by_cases hne : p.names = []
  · obtain ⟨anchor, names⟩ := p
    obtain rfl : names = [] := hne
    cases anchor <;> decide
  · rw [namesOn_toText h hne]
    apply List.filter_eq_self.mpr
    intro name hname
    exact decide_eq_true (h name hname).2.2

/-- A text is read as anchored exactly if it begins with a slash. -/
theorem anchor_ofText (t : Text) :
    (ofText t).anchor = .relative ↔ t.head? ≠ some (.char '/') := by
  cases t with
  | nil => exact iff_of_true rfl (by simp)
  | cons c t =>
    by_cases hc : c = .char '/'
    · refine iff_of_false ?_ (by simp [hc])
      have hrun : ((c :: t).takeWhile (· = .char '/')).length =
          (t.takeWhile (· = .char '/')).length + 1 := by
        rw [List.takeWhile_cons_of_pos (p := fun d => decide (d = CodePoint.char '/'))
          (decide_eq_true hc), List.length_cons]
      unfold ofText
      simp only [hrun]
      split <;> simp_all
    · refine iff_of_true ?_ (by simpa using hc)
      have hnone : (c :: t).takeWhile (· = .char '/') = [] :=
        List.takeWhile_cons_of_neg (by simpa using hc)
      unfold ofText
      simp only [hnone]
      rfl

theorem head?_join (h : IsProper p) : (Text.join "/" p.names).head? ≠ some (.char '/') := by
  obtain ⟨anchor, names⟩ := p
  match names with
  | [] => exact fun hnil => by cases hnil
  | [] :: more => exact absurd rfl (h [] List.mem_cons_self).1
  | (c :: name) :: more =>
    have hslash := (h (c :: name) List.mem_cons_self).2.1
    have hc : c ≠ .char '/' := fun he => hslash (by rw [he]; exact List.mem_cons_self)
    have hhead : (Text.join "/" ((c :: name) :: more)).head? = some c := by
      cases more <;> rfl
    rw [hhead]
    simpa using hc

/-- **A written path is read as it was.** -/
theorem ofText_toText (h : IsProper p) : ofText p.toText = p := by
  have hread : ofText p.toText = ⟨(ofText p.toText).anchor, namesOf p.toText⟩ := rfl
  rw [hread, namesOf_toText h]
  obtain ⟨anchor, names⟩ := p
  cases names with
  | nil => cases anchor <;> decide
  | cons name names =>
    have hstop : (Text.join "/" (name :: names)).takeWhile (· = .char '/') = [] := by
      have hhead := head?_join h
      cases hjoin : Text.join "/" (name :: names) with
      | nil => rfl
      | cons c rest =>
        rw [hjoin] at hhead
        exact List.takeWhile_cons_of_neg (by simpa using hhead)
    have hslashes : (anchorText anchor ++ Text.join "/" (name :: names)).takeWhile
        (· = .char '/') = anchorText anchor := by
      rw [List.takeWhile_append_of_pos (by cases anchor <;> decide), hstop, List.append_nil]
    rw [toText_of_names (List.cons_ne_nil _ _)]
    unfold ofText
    simp only [hslashes]
    cases anchor <;> rfl

end Path

namespace Store

variable {s t : Store} {path name : Text} {p q : Place} {names : List Text}

/-! ### Where a path starts -/

/-- Where a path that was read starts. -/
def start (s : Store) (p : Path) : Place := if p.anchor = .relative then s.workingDir else []

theorem origin_eq (s : Store) (path : Text) :
    s.origin path = if path.head? = some (.char '/') then [] else s.workingDir := by
  unfold origin
  cases path with
  | nil => rfl
  | cons c path =>
    have hbegins : Text.startsWith (c :: path) "/" = (CodePoint.char '/' == c && true) := rfl
    by_cases hc : c = .char '/'
    · rw [hc]
      rfl
    · rw [if_neg, if_neg (by simpa using hc)]
      rw [hbegins]
      simpa using Ne.symm hc

theorem origin_eq_start (s : Store) (path : Text) :
    s.origin path = s.start (Path.ofText path) := by
  rw [origin_eq, start]
  by_cases hhead : path.head? = some (.char '/')
  · rw [if_pos hhead, if_neg fun hanchor => (Path.anchor_ofText path).mp hanchor hhead]
  · rw [if_neg hhead, if_pos ((Path.anchor_ofText path).mpr hhead)]

theorem origin_toText {path : Path} (h : path.IsProper) : s.origin path.toText = s.start path := by
  rw [origin_eq_start, Path.ofText_toText h]

/-- A path can be asked about exactly if its names can, but for dots and slashes. -/
theorem usable_iff_namesOf : Usable path ↔ ∀ name ∈ Path.namesOf path, Usable name := by
  rw [usable_iff_namesOn, Path.namesOf_eq]
  constructor
  · exact fun hall name hname => hall name (List.mem_filter.mp hname).1
  · intro hall name hname
    by_cases hdot : name = (("." : String) : Text)
    · rw [hdot]
      exact usable_dot
    · exact hall name (List.mem_filter.mpr ⟨hname, decide_eq_true hdot⟩)

theorem usable_toText {path : Path} (h : path.IsProper) :
    Usable path.toText ↔ ∀ name ∈ path.names, Usable name := by
  rw [usable_iff_namesOf, Path.namesOf_toText h]

theorem usable_ofText : Usable (Path.ofText path).toText ↔ Usable path := by
  rw [usable_toText (Path.isProper_ofText path), usable_iff_namesOf]
  rfl

/-! ### Dots and runs of slashes -/

/-- Names that lead to a folder lead there from a folder. -/
theorem folder_of_follow_folder (h : s.follow p names = .ok q)
    (hq : s.entry? q = some .folder) : s.entry? p = some .folder := by
  cases names with
  | nil =>
    obtain rfl := Except.ok.inj h
    exact hq
  | cons name names =>
    rw [follow] at h
    cases henter : s.enter p name with
    | ok r => exact folder_of_enter henter
    | error e =>
      rw [henter] at h
      cases h

/-- Single dots add nothing to where a folder is. -/
theorem follow_filter_dots (hq : s.entry? q = some .folder) :
    s.follow p (names.filter (· ≠ (("." : String) : Text))) = .ok q ↔
      s.follow p names = .ok q := by
  induction names generalizing p with
  | nil => rfl
  | cons name names ih =>
    by_cases hdot : name = (("." : String) : Text)
    · rw [List.filter_cons_of_neg (by simp [hdot]), ih]
      have hstays : s.entry? p = some .folder → s.enter p name = .ok p := by
        intro hfolder
        unfold enter
        rw [hfolder]
        exact if_pos hdot
      constructor
      · intro h
        rw [follow, hstays (folder_of_follow_folder h hq)]
        exact h
      · intro h
        have hfolder := folder_of_follow_folder h hq
        rwa [follow, hstays hfolder] at h
    · rw [List.filter_cons_of_pos (by simpa using hdot), follow, follow]
      cases s.enter p name with
      | ok r => exact ih
      | error e => rfl

/-- A written path leads to a folder along its names. -/
theorem leadsTo_toText {path : Path} (h : path.IsProper) (hq : s.entry? q = some .folder) :
    s.LeadsTo path.toText q ↔ s.follow (s.start path) path.names = .ok q := by
  have hnames := Path.namesOf_toText h
  rw [Path.namesOf_eq] at hnames
  unfold LeadsTo
  rw [origin_toText h, ← follow_filter_dots hq, hnames]

/-- **A path leads to the same folder when it is read and written again.** -/
theorem leadsTo_ofText (hq : s.entry? q = some .folder) :
    s.LeadsTo (Path.ofText path).toText q ↔ s.LeadsTo path q := by
  have hnames : (Path.ofText path).names =
      (namesOn path).filter (· ≠ (("." : String) : Text)) := Path.namesOf_eq path
  rw [leadsTo_toText (Path.isProper_ofText path) hq, hnames, follow_filter_dots hq,
    ← origin_eq_start]
  rfl

/-- Runs of slashes add no names, and the first name stays the first. -/
theorem splitAt_collapse (path : Text) : ∃ first more more',
    Text.splitAt '/' (Path.collapse path) = first :: more ∧
      Text.splitAt '/' path = first :: more' ∧ more.filter (· ≠ []) = more'.filter (· ≠ []) := by
  induction path with
  | nil => exact ⟨[], [], [], rfl, rfl, rfl⟩
  | cons c path ih =>
    obtain ⟨first, more, more', hcollapse, hpath, hmore⟩ := ih
    unfold Path.collapse
    by_cases hc : c = .char '/'
    · obtain rfl := hc
      have hslash : ∀ r : Text, Text.splitAt (.char '/') (.char '/' :: r) =
          [] :: Text.splitAt '/' r := by
        intro r
        rw [Text.splitAt, if_pos rfl]
      by_cases hrun : path.head? = some (.char '/')
      · -- the slash that is dropped has an empty name behind it
        rw [if_pos ⟨rfl, hrun⟩, hslash, hcollapse, hpath]
        obtain ⟨rest, rfl⟩ := List.head?_eq_some_iff.mp hrun
        rw [hslash] at hpath
        obtain ⟨rfl, _⟩ := List.cons.inj hpath
        refine ⟨[], more, [] :: more', rfl, rfl, ?_⟩
        rw [hmore, List.filter_cons_of_neg (by simp)]
      · rw [if_neg fun h => hrun h.2, hslash, hslash, hcollapse, hpath]
        refine ⟨[], first :: more, first :: more', rfl, rfl, ?_⟩
        rw [List.filter_cons, List.filter_cons, hmore]
    · have hother : ∀ r : Text, ∀ piece pieces, Text.splitAt '/' r = piece :: pieces →
          Text.splitAt '/' (c :: r) = (c :: piece) :: pieces := by
        intro r piece pieces hr
        rw [Text.splitAt, if_neg hc, hr]
      rw [if_neg fun h => hc h.1]
      exact ⟨c :: first, more, more', hother _ _ _ hcollapse, hother _ _ _ hpath, hmore⟩

theorem namesOn_collapse (path : Text) : namesOn (Path.collapse path) = namesOn path := by
  obtain ⟨first, more, more', hcollapse, hpath, hmore⟩ := splitAt_collapse path
  unfold namesOn
  rw [hcollapse, hpath, List.filter_cons, List.filter_cons, hmore]

/-- Of two slashes at the beginning one is left when runs of slashes are written as one, and
    nothing else changes when the path is read. -/
theorem ofText_collapse (path : Text) : Path.ofText (Path.collapse path) =
    if (Path.ofText path).anchor = .relative then Path.ofText path
    else ⟨.root, (Path.ofText path).names⟩ := by
  have hnames : Path.namesOf (Path.collapse path) = Path.namesOf path := by
    rw [Path.namesOf_eq, Path.namesOf_eq, namesOn_collapse]
  have hread : ∀ t : Text, Path.ofText t = ⟨(Path.ofText t).anchor, Path.namesOf t⟩ := fun _ => rfl
  by_cases hanchor : (Path.ofText path).anchor = .relative
  · have hsame : (Path.ofText (Path.collapse path)).anchor = .relative := by
      rw [Path.anchor_ofText, Path.head?_collapse]
      exact (Path.anchor_ofText path).mp hanchor
    rw [if_pos hanchor, hread, hread path, hsame, hanchor, hnames]
  · have hhead : (Path.collapse path).head? = some (.char '/') := by
      rw [Path.head?_collapse]
      by_contra hnot
      exact hanchor ((Path.anchor_ofText path).mpr hnot)
    have hone : (Path.ofText (Path.collapse path)).anchor = .root := by
      obtain ⟨rest, hrest⟩ := List.head?_eq_some_iff.mp hhead
      have hchain := Path.isChain_collapse path
      rw [hrest] at hchain
      have hstop : rest.takeWhile (· = .char '/') = [] := by
        cases rest with
        | nil => rfl
        | cons c rest =>
          have hc : c ≠ .char '/' := fun he => (List.isChain_cons_cons.mp hchain).1 ⟨rfl, he⟩
          exact List.takeWhile_cons_of_neg (by simpa using hc)
      rw [hrest]
      unfold Path.ofText
      rw [List.takeWhile_cons_of_pos (p := fun d => decide (d = CodePoint.char '/')) (by simp),
        hstop]
      rfl
    rw [if_neg hanchor, hread, hone, hnames]
    rfl

/-- A path with two slashes at its beginning leads where it leads with one. -/
theorem locate_root {path : Path} (hanchor : path.anchor ≠ .relative)
    (h : s.locate path.toText = .ok p) : s.locate (Path.toText ⟨.root, path.names⟩) = .ok p := by
  obtain ⟨anchor, names⟩ := path
  cases anchor with
  | relative => exact absurd rfl hanchor
  | root => exact h
  | doubleRoot =>
    have htext : Path.toText ⟨.doubleRoot, names⟩ =
        .char '/' :: Path.toText ⟨.root, names⟩ := by
      cases names <;> rfl
    have hhead : (Path.toText ⟨.root, names⟩).head? = some (.char '/') := by
      cases names <;> rfl
    rw [htext, locate_eq_ok_iff] at h
    obtain ⟨_, husable, hshort, hleads⟩ := h
    refine locate_eq_ok_iff.mpr ⟨?_, fun c hc => husable c (List.mem_cons_of_mem _ hc), ?_, ?_⟩
    · intro hnil
      rw [hnil] at hhead
      cases hhead
    · rw [Utf8.bytesOf_cons, List.length_append] at hshort
      show (Utf8.bytesOf (Path.toText ⟨.root, names⟩)).length < pathLimit
      omega
    · unfold LeadsTo at hleads ⊢
      rw [namesOn_slash_cons, origin_eq, List.head?_cons] at hleads
      rw [origin_eq, hhead]
      exact hleads

/-- **A path without backslashes leads where it led when it is normalized.** -/
theorem leadsTo_normalize (h : .char '\\' ∉ path) :
    s.LeadsTo (Path.normalize path) p ↔ s.LeadsTo path p := by
  unfold LeadsTo Path.normalize
  rw [Text.substitute_of_not_mem h, namesOn_collapse, origin_eq, origin_eq, Path.head?_collapse]

theorem namesOn_withoutTrailing (path : Text) :
    namesOn (Path.withoutTrailing path) = namesOn path := by
  rw [← namesOn_trimRight path]
  unfold Path.withoutTrailing
  split
  · next hnil =>
    rw [hnil]
    rfl
  · rfl

/-- Slashes at the end of a path make no difference. -/
theorem leadsTo_withoutTrailing (h : path ≠ []) :
    s.LeadsTo (Path.withoutTrailing path) p ↔ s.LeadsTo path p := by
  unfold LeadsTo
  rw [namesOn_withoutTrailing,
    origin_of_begins (Path.withoutTrailing_begins h) (Path.withoutTrailing_ne_nil path)]

/-- A path can be asked about if it can when it is normalized. -/
theorem usable_of_normalize (h : Usable (Path.withoutTrailing (Path.normalize path))) :
    Usable path := by
  rw [usable_iff_namesOn, namesOn_withoutTrailing, Path.normalize, namesOn_collapse,
    ← usable_iff_namesOn] at h
  intro c hc
  by_cases hbackslash : c = .char '\\'
  · rw [hbackslash]
    exact ⟨by decide, rfl⟩
  · exact h c (Text.mem_substitute_of_ne hbackslash hc _)

/-! ### Names behind a path -/

/-- Holds of a name that leads further down from every folder. -/
structure LeadsDown (name : Text) : Prop where
  long : 2 < name.length
  noSlash : .char '/' ∉ name
  encodable : Utf8.Encodable name
  short : (Utf8.bytesOf name).length ≤ nameLimit

theorem LeadsDown.enter (h : LeadsDown name) :
    s.enter q name = .ok p ↔ s.entry? q = some .folder ∧ p = q ++ [name] := by
  constructor
  · intro henter
    exact ⟨folder_of_enter henter, eq_of_enter_long h.long henter⟩
  · rintro ⟨hfolder, rfl⟩
    have hdots : ∀ dots : Text, dots.length ≤ 2 → name ≠ dots := by
      rintro dots hlength rfl
      exact absurd h.long (by omega)
    unfold Store.enter
    rw [hfolder]
    simp only [if_neg (hdots ("." : String) (by decide)),
      if_neg (hdots (".." : String) (by decide)),
      Utf8.encode_eq_ok_iff.mpr ⟨h.encodable, rfl⟩, if_neg (not_lt.mpr h.short)]

theorem LeadsDown.follow (h : LeadsDown name) {r : Place} :
    s.follow p (names ++ [name]) = .ok r ↔
      ∃ q, s.entry? q = some .folder ∧ s.follow p names = .ok q ∧ r = q ++ [name] := by
  constructor
  · intro hfollow
    obtain ⟨q, habove, henter⟩ := follow_append_singleton hfollow
    obtain ⟨hfolder, hr⟩ := h.enter.mp henter
    exact ⟨q, hfolder, habove, hr⟩
  · rintro ⟨q, hfolder, habove, hr⟩
    rw [follow_append_of_ok habove, Store.follow, h.enter.mpr ⟨hfolder, hr⟩]
    rfl

theorem LeadsDown.ne_nil (h : LeadsDown name) : name ≠ [] := by
  rintro rfl
  exact absurd h.long (by decide)

theorem LeadsDown.join_eq (h : LeadsDown name) (path : Path) :
    path.join name = ⟨path.anchor, path.names ++ [name]⟩ := by
  have hanchor : (Path.ofText name).anchor = .relative := by
    rw [Path.anchor_ofText]
    exact fun hhead => h.noSlash (List.mem_of_head? hhead)
  have hnames : Path.namesOf name = [name] := by
    rw [Path.namesOf_eq, namesOn_of_not_mem h.noSlash, if_neg h.ne_nil]
    apply List.filter_cons_of_pos
    apply decide_eq_true
    rintro rfl
    exact absurd h.long (by decide)
  have hname : Path.ofText name = ⟨(Path.ofText name).anchor, Path.namesOf name⟩ := rfl
  unfold Path.join
  rw [hname, hanchor, hnames]
  rfl

/-- A path ends in the name that was put behind it. -/
theorem LeadsDown.exists_toText (h : LeadsDown name) (path : Path) :
    ∃ front, (path.join name).toText = front ++ name := by
  obtain ⟨front, hfront⟩ := Path.exists_join_concat path.names name
  refine ⟨Path.anchorText path.anchor ++ front, ?_⟩
  have hne : (path.join name).names ≠ [] := by simp [h.join_eq]
  rw [Path.toText_of_names hne, h.join_eq, List.append_assoc, ← hfront]

theorem LeadsDown.needsFolder (h : LeadsDown name) (path : Path) :
    needsFolder (path.join name).toText = false := by
  obtain ⟨front, hfront⟩ := h.exists_toText path
  rw [Bool.eq_false_iff]
  intro hneeds
  rw [hfront] at hneeds
  obtain ⟨before, hbefore⟩ := List.isSuffixOf_iff_suffix.mp hneeds
  -- the last code point is one of the name
  have hlast := congrArg List.getLast? hbefore
  have hslash : (before ++ Text.ofString "/").getLast? = some (.char '/') :=
    List.getLast?_concat
  rw [hslash, List.getLast?_append_of_ne_nil _ h.ne_nil] at hlast
  exact h.noSlash (List.mem_of_getLast? hlast.symm)

/-- **What a name behind a path leads to** stands in the folder to which the path leads. -/
theorem LeadsDown.join (h : LeadsDown name) {path : Path} (hpath : path.IsProper) {r : Place} :
    s.LeadsTo (path.join name).toText r ↔
      ∃ q, s.entry? q = some .folder ∧ s.LeadsTo path.toText q ∧ r = q ++ [name] := by
  have hproper := hpath.join name
  have hstart : s.start (path.join name) = s.start path := by
    rw [h.join_eq]
    rfl
  have hnames : (path.join name).names = path.names ++ [name] := by rw [h.join_eq]
  have hne : (path.join name).names ≠ [] := by simp [hnames]
  unfold LeadsTo
  rw [Path.namesOn_toText hproper hne, origin_toText hproper, hstart, hnames, h.follow]
  constructor
  · rintro ⟨q, hfolder, habove, hr⟩
    exact ⟨q, hfolder, (leadsTo_toText hpath hfolder).mpr habove, hr⟩
  · rintro ⟨q, hfolder, hleads, hr⟩
    exact ⟨q, hfolder, (leadsTo_toText hpath hfolder).mp hleads, hr⟩

theorem LeadsDown.append (h : LeadsDown name) (hne : path ≠ []) {r : Place} :
    s.LeadsTo (path ++ "/" ++ name) r ↔
      ∃ q, s.entry? q = some .folder ∧ s.LeadsTo path q ∧ r = q ++ [name] := by
  have hnames : namesOn (path ++ "/" ++ name) = namesOn path ++ [name] := by
    rw [List.append_assoc]
    show namesOn (path ++ .char '/' :: name) = _
    rw [namesOn_append_slash, namesOn_of_not_mem h.noSlash, if_neg h.ne_nil]
  have horigin : s.origin path = s.origin (path ++ "/" ++ name) := by
    apply origin_of_begins _ hne
    rw [List.append_assoc]
    exact List.prefix_append _ _
  unfold LeadsTo
  rw [hnames, ← horigin, h.follow]

/-! ### Places by their names alone -/

/-- **Names that lead somewhere lead where they say**, if there is no single dot among them. -/
theorem resolveNames_of_follow (hdots : ∀ name ∈ names, name ≠ (("." : String) : Text))
    (h : s.follow p names = .ok q) : resolveNames p names = q := by
  induction names generalizing p with
  | nil => exact Except.ok.inj h
  | cons name names ih =>
    rw [follow] at h
    cases henter : s.enter p name with
    | error e =>
      rw [henter] at h
      cases h
    | ok r =>
      rw [henter] at h
      have hstep : (if name = (".." : Text) then p.dropLast else p ++ [name]) = r := by
        have hname := hdots name List.mem_cons_self
        have hfolder := folder_of_enter henter
        unfold enter at henter
        rw [hfolder] at henter
        simp only [if_neg hname] at henter
        split at henter
        · next hup =>
          rw [if_pos hup]
          exact Except.ok.inj henter
        · next hdown =>
          rw [if_neg hdown]
          split at henter
          · split at henter
            · cases henter
            · exact Except.ok.inj henter
          · cases henter
      show resolveNames (if name = (".." : Text) then p.dropLast else p ++ [name]) names = q
      rw [hstep]
      exact ih (fun other hmem => hdots other (List.mem_cons_of_mem _ hmem)) h

/-- The names of a written path lead where the path leads. -/
theorem follow_of_locate_toText {path : Path} (h : path.IsProper)
    (hlocate : s.locate path.toText = .ok p) : s.follow (s.start path) path.names = .ok p := by
  have hfollow := follow_of_locate hlocate
  rw [origin_toText h] at hfollow
  by_cases hnames : path.names = []
  · -- a dot, or slashes alone
    obtain ⟨anchor, names⟩ := path
    obtain rfl : names = [] := hnames
    cases anchor with
    | relative =>
      have hdot : namesOn (Path.toText ⟨.relative, []⟩) = [Text.ofString "."] := by decide
      rw [hdot, ← List.nil_append [Text.ofString "."]] at hfollow
      obtain ⟨q, hq, henter⟩ := follow_append_singleton hfollow
      obtain rfl := Except.ok.inj hq
      unfold enter at henter
      rw [folder_of_enter henter] at henter
      exact henter
    | root => exact hfollow
    | doubleRoot => exact hfollow
  · rwa [Path.namesOn_toText h hnames] at hfollow

/-- **A path that leads somewhere is resolved to the place to which it leads.** -/
theorem resolve_of_locate {path : Path} (h : path.IsProper)
    (hlocate : s.locate path.toText = .ok p) : s.resolve path = p :=
  resolveNames_of_follow (fun name hname => (h name hname).2.2) (follow_of_locate_toText h hlocate)

/-! ### Backslashes -/

/-- Holds of a store in which no folder has a backslash in its name, or in that of a folder
    above it. -/
structure BackslashFree (s : Store) : Prop where
  workingDir : ∀ name ∈ s.workingDir, .char '\\' ∉ name
  folders : ∀ p, s.entry? p = some .folder → ∀ name ∈ p, .char '\\' ∉ name

theorem backslashFree_of_entries (hdir : ∀ name ∈ s.workingDir, .char '\\' ∉ name)
    (h : ∀ pair ∈ s.entries, ∀ name ∈ pair.1, .char '\\' ∉ name) : s.BackslashFree := by
  refine ⟨hdir, ?_⟩
  intro p hp name hname
  exact h _ (mem_entries (List.ne_nil_of_mem hname) hp) name hname

/-- Names without backslashes lead to places without backslashes. -/
theorem noBackslash_of_follow (hp : ∀ name ∈ p, .char '\\' ∉ name)
    (hnames : ∀ name ∈ names, .char '\\' ∉ name) (h : s.follow p names = .ok q) :
    ∀ name ∈ q, .char '\\' ∉ name := by
  induction names generalizing p with
  | nil =>
    obtain rfl := Except.ok.inj h
    exact hp
  | cons name names ih =>
    rw [follow] at h
    cases henter : s.enter p name with
    | error e =>
      rw [henter] at h
      cases h
    | ok r =>
      rw [henter] at h
      refine ih ?_ (fun other hmem => hnames other (List.mem_cons_of_mem _ hmem)) h
      rcases eq_of_enter henter with ⟨_, rfl⟩ | ⟨_, rfl⟩ | rfl
      · exact hp
      · exact fun other hmem => hp other (List.dropLast_subset _ hmem)
      · intro other hmem
        rcases List.mem_append.mp hmem with hmem | hmem
        · exact hp other hmem
        · obtain rfl := List.mem_singleton.mp hmem
          exact hnames _ List.mem_cons_self

/-- A name with a backslash leads to no folder. -/
theorem not_folder_of_backslash (hfree : s.BackslashFree) (hname : name ∈ names)
    (hmem : .char '\\' ∈ name) (hq : s.entry? q = some .folder) : s.follow p names ≠ .ok q := by
  intro h
  induction names generalizing p with
  | nil => cases hname
  | cons first names ih =>
    rw [follow] at h
    cases henter : s.enter p first with
    | error e =>
      rw [henter] at h
      cases h
    | ok r =>
      rw [henter] at h
      rcases List.mem_cons.mp hname with rfl | hname
      · -- it leads down to a place that would have to be a folder
        have hfolder := folder_of_follow_folder h hq
        rcases eq_of_enter henter with ⟨rfl, _⟩ | ⟨rfl, _⟩ | rfl
        · exact absurd hmem (by decide)
        · exact absurd hmem (by decide)
        · exact hfree.folders _ hfolder name (by simp) hmem
      · exact ih hname h

/-- **A path with a backslash leads to no folder** if no folder has one in its name. -/
theorem not_leadsTo_of_backslash (hfree : s.BackslashFree) (hpath : .char '\\' ∈ path)
    (hq : s.entry? q = some .folder) : ¬ s.LeadsTo path q := by
  obtain ⟨name, hname, hmem⟩ := (mem_namesOn (by decide)).mpr hpath
  exact not_folder_of_backslash hfree hname hmem hq

/-- **Making folders without backslashes in their path adds none.** -/
theorem BackslashFree.makeFolders {result : Except AccessError Unit} (hfree : s.BackslashFree)
    (hpath : .char '\\' ∉ path) (h : s.makeFolders path = (t, result)) : t.BackslashFree := by
  have hadds := addsFolders_makeFolders s path
  rw [h] at hadds
  have hdir : ∀ name ∈ t.workingDir, .char '\\' ∉ name := by
    rw [hadds.keeps.workingDir]
    exact hfree.workingDir
  have horigin : ∀ name ∈ t.origin path, .char '\\' ∉ name := by
    unfold origin
    split
    · simp
    · exact hdir
  have hnames : ∀ name ∈ namesOn path, .char '\\' ∉ name :=
    fun name hname hmem => hpath ((mem_namesOn (by decide)).mp ⟨name, hname, hmem⟩)
  refine ⟨hdir, ?_⟩
  intro p hp
  by_cases hsame : t.entry? p = s.entry? p
  · exact hfree.folders p (hsame.symm.trans hp)
  · -- a folder that was made is on the way of the path
    rcases onWay_of_makeFolders h hsame with ⟨before, after, hsplit, _, hfollow⟩ | ⟨_, hlocate⟩
    · refine noBackslash_of_follow horigin (fun name hname => hnames name ?_) hfollow
      rw [hsplit]
      exact List.mem_append_left _ hname
    · exact noBackslash_of_follow horigin hnames (follow_of_locate hlocate)

end Store

end ClangDb
