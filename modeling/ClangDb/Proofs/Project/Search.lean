import ClangDb.Project.Find
import ClangDb.Proofs.FileStore.Spelling
import ClangDb.Proofs.World

/-! # Where a project is found

    The search asks the folder of the start, then each folder above it, and takes the
    least name that ends as those of project files do.  It asks for names alone: a
    folder with such a name is taken for a project file, and hides the files behind it
    and above it.  A start that is a project file is found itself, but not by the name
    that has nothing before its suffix.

    Key theorems:
    - `least?_spec`, `inFolder?_spec`: the project of one folder,
    - `nearest?_spec`: of the nearest folder that has one,
    - `suffix_eq_iff`: names with a suffix,
    - `find_nearest`: what is found from a start that is there.
-/

namespace ClangDb

namespace Store

/-- Holds of a store in which everything stands in a folder. -/
structure IsTree (s : Store) : Prop where
  workingDir : s.entry? s.workingDir = some .folder
  above : ∀ pair ∈ s.entries, s.entry? pair.1.dropLast = some .folder

variable {s : Store} {p : Place} {name : Text} {e : Entry}

/-- What stands somewhere stands in a folder. -/
theorem IsTree.folder_above (h : s.IsTree) (he : s.entry? p = some e) :
    s.entry? p.dropLast = some .folder := by
  by_cases hp : p = []
  · rw [hp]
    rfl
  · exact h.above _ (mem_entries hp he)

/-- **The names in a folder** are those of what stands in it. -/
theorem mem_namesIn : name ∈ s.namesIn p ↔ ∃ e, s.entry? (p ++ [name]) = some e := by
  have hentry : s.entry? (p ++ [name]) = lookup (p ++ [name]) s.entries := if_neg (by simp)
  rw [hentry]
  unfold namesIn
  rw [List.mem_filterMap]
  constructor
  · rintro ⟨⟨q, e⟩, hmem, hname⟩
    cases hlast : q.getLast? with
    | none => simp [hlast] at hname
    | some last =>
      simp only [hlast] at hname
      split at hname
      · next hfolder =>
        obtain rfl := Option.some.inj hname
        obtain ⟨front, rfl⟩ := List.getLast?_eq_some_iff.mp hlast
        rw [List.dropLast_concat] at hfolder
        rw [hfolder] at hmem
        exact exists_lookup_of_mem hmem
      · cases hname
  · rintro ⟨e, he⟩
    refine ⟨(p ++ [name], e), mem_of_lookup he, ?_⟩
    simp

end Store

namespace Text

/-! ### The order of texts -/

theorem before_refl (a : Text) : before a a = true := by
  induction a with
  | nil => rfl
  | cons c a ih =>
    rw [before, if_neg (Nat.lt_irrefl _), if_neg (Nat.lt_irrefl _)]
    exact ih

theorem before_total (a b : Text) : before a b = true ∨ before b a = true := by
  induction a generalizing b with
  | nil => exact .inl rfl
  | cons c a ih =>
    cases b with
    | nil => exact .inr rfl
    | cons d b =>
      rw [before, before]
      rcases lt_trichotomy c.toNat d.toNat with h | h | h
      · exact .inl (if_pos h)
      · simp only [h, lt_irrefl, if_false]
        exact ih b
      · exact .inr (if_pos h)

theorem before_trans {a b c : Text} (h : before a b = true) (h' : before b c = true) :
    before a c = true := by
  induction a generalizing b c with
  | nil => rfl
  | cons x a ih =>
    match b, c, h, h' with
    | y :: b, z :: c, h, h' =>
      rw [before] at h h' ⊢
      rcases lt_trichotomy x.toNat y.toNat with hxy | hxy | hxy
      · rcases lt_trichotomy y.toNat z.toNat with hyz | hyz | hyz
        · rw [if_pos (hxy.trans hyz)]
        · rw [if_pos (hyz ▸ hxy)]
        · rw [if_neg hyz.asymm, if_pos hyz] at h'
          cases h'
      · rcases lt_trichotomy y.toNat z.toNat with hyz | hyz | hyz
        · rw [if_pos (hxy ▸ hyz)]
        · rw [hxy, hyz, if_neg (lt_irrefl _), if_neg (lt_irrefl _)]
          rw [hxy, if_neg (lt_irrefl _), if_neg (lt_irrefl _)] at h
          rw [hyz, if_neg (lt_irrefl _), if_neg (lt_irrefl _)] at h'
          exact ih h h'
        · rw [if_neg hyz.asymm, if_pos hyz] at h'
          cases h'
      · rw [if_neg hxy.asymm, if_pos hxy] at h
        cases h

/-- A text is cut at a separator that is followed by none. -/
theorem cutLast?_append {sep : CodePoint} {after : Text} (h : sep ∉ after) (before : Text) :
    cutLast? sep (before ++ sep :: after) = some (before, after) := by
  have hreverse : (before ++ sep :: after).reverse = after.reverse ++ sep :: before.reverse := by
    simp
  have hall : ∀ c ∈ after.reverse, decide (c ≠ sep) = true := by
    intro c hc
    apply decide_eq_true
    rintro rfl
    exact h (List.mem_reverse.mp hc)
  unfold cutLast?
  rw [hreverse, List.span_eq_takeWhile_dropWhile, List.takeWhile_append_of_pos hall,
    List.dropWhile_append_of_pos hall, List.takeWhile_cons_of_neg (by simp),
    List.dropWhile_cons_of_neg (by simp)]
  simp

end Text

namespace Project

variable {host : Host} {s : Store} {p q folder : Place} {name : Text} {names : List Text}
  {path : Path} {entry : Entry}

/-! ### The project of a folder -/

theorem least?_eq_none_iff : least? names = none ↔ names = [] := by
  cases names with
  | nil => exact iff_of_true rfl rfl
  | cons first names =>
    refine iff_of_false ?_ (List.cons_ne_nil _ _)
    rw [least?]
    split
    · split <;> simp
    · simp

/-- **The least of some texts** is one of them, and not after any. -/
theorem least?_spec (h : least? names = some name) :
    name ∈ names ∧ ∀ other ∈ names, name.before other = true := by
  induction names generalizing name with
  | nil => cases h
  | cons first names ih =>
    rw [least?] at h
    cases hleast : least? names with
    | none =>
      rw [hleast] at h
      obtain rfl := Option.some.inj h
      rw [least?_eq_none_iff.mp hleast]
      exact ⟨List.mem_cons_self, by simp [Text.before_refl]⟩
    | some least =>
      simp only [hleast] at h
      obtain ⟨hmem, hbefore⟩ := ih hleast
      by_cases hfirst : first.before least = true
      · rw [if_pos hfirst] at h
        obtain rfl := Option.some.inj h
        refine ⟨List.mem_cons_self, ?_⟩
        intro other hother
        rcases List.mem_cons.mp hother with rfl | hother
        · exact Text.before_refl _
        · exact Text.before_trans hfirst (hbefore other hother)
      · rw [if_neg hfirst] at h
        obtain rfl := Option.some.inj h
        refine ⟨List.mem_cons_of_mem _ hmem, ?_⟩
        intro other hother
        rcases List.mem_cons.mp hother with rfl | hother
        · exact (Text.before_total other least).resolve_left hfirst
        · exact hbefore other hother

/-- Holds of a name in a folder that ends as those of project files do, if what has the name
    counts. -/
def Holds (s : Store) (counts : Entry → Prop) (folder : Place) (name : Text) : Prop :=
  name.endsWith fileSuffix = true ∧ ∃ e, s.entry? (folder ++ [name]) = some e ∧ counts e

/-- Counts files and folders. -/
def IsAny (_ : Entry) : Prop := True

/-- Counts files alone. -/
def IsRegular (e : Entry) : Prop := e ≠ .folder

theorem Holds.any {counts : Entry → Prop} (h : Holds s counts folder name) :
    Holds s IsAny folder name := by
  obtain ⟨hends, e, he, _⟩ := h
  exact ⟨hends, e, he, trivial⟩

theorem holds_iff_mem : Holds s IsAny folder name ↔
    name ∈ (s.namesIn folder).filter (·.endsWith fileSuffix) := by
  rw [List.mem_filter, Store.mem_namesIn]
  constructor
  · rintro ⟨hends, e, he, _⟩
    exact ⟨⟨e, he⟩, hends⟩
  · rintro ⟨⟨e, he⟩, hends⟩
    exact ⟨hends, e, he, trivial⟩

/-- **The project of a folder** is the least of those that it holds. -/
theorem inFolder?_spec (htree : s.IsTree) (folder : Place) :
    (inFolder? s folder = none → ∀ name, ¬ Holds s IsAny folder name) ∧
      ∀ q, inFolder? s folder = some q → ∃ name, q = folder ++ [name] ∧
        Holds s IsAny folder name ∧
          ∀ other, Holds s IsAny folder other → name.before other = true := by
  unfold inFolder?
  split
  · next hfolder =>
    cases hleast : least? ((s.namesIn folder).filter (·.endsWith fileSuffix)) with
    | none =>
      refine ⟨?_, by simp⟩
      intro _ name hholds
      rw [holds_iff_mem, least?_eq_none_iff.mp hleast] at hholds
      cases hholds
    | some least =>
      obtain ⟨hmem, hbefore⟩ := least?_spec hleast
      refine ⟨by simp, ?_⟩
      intro q hq
      exact ⟨least, (Option.some.inj hq).symm, holds_iff_mem.mpr hmem,
        fun other hother => hbefore other (holds_iff_mem.mp hother)⟩
  · next hnot =>
    refine ⟨?_, by simp⟩
    rintro _ name ⟨_, e, he, _⟩
    have habove := htree.folder_above he
    rw [List.dropLast_concat] at habove
    exact hnot habove

/-! ### The nearest folder -/

theorem ancestors_concat (p : Place) (name : Text) :
    ancestors (p ++ [name]) = (p ++ [name]) :: ancestors p := by
  unfold ancestors
  rw [List.length_append, List.length_singleton, List.range_succ_eq_map, List.map_cons,
    List.map_map]
  congr 1
  · simp
  · apply List.map_congr_left
    intro n hn
    have hle : p.length + 1 - (n + 1) ≤ p.length := by omega
    show (p ++ [name]).take (p.length + 1 - (n + 1)) = p.take (p.length - n)
    rw [List.take_append_of_le_length hle, Nat.add_sub_add_right]

/-- A folder is asked before those above it. -/
theorem nearest?_concat (s : Store) (p : Place) (name : Text) :
    nearest? s (p ++ [name]) = (inFolder? s (p ++ [name])).or (nearest? s p) := by
  unfold nearest?
  rw [ancestors_concat, List.findSome?_cons]
  cases inFolder? s (p ++ [name]) <;> rfl

/-- Holds of a folder and a name in it, which is the project that is nearest to a place among
    those that count. -/
structure IsNearest (s : Store) (counts : Entry → Prop) (p folder : Place) (name : Text) :
    Prop where
  above : folder <+: p
  holds : Holds s counts folder name
  /-- No folder on the way to the place holds one further down. -/
  deepest : ∀ other name', other <+: p → Holds s counts other name' → other <+: folder
  /-- No name in the folder comes before. -/
  least : ∀ name', Holds s counts folder name' → name.before name' = true

/-- **The nearest project**, whatever stands for one. -/
theorem nearest?_spec (htree : s.IsTree) (p : Place) :
    (nearest? s p = none → ∀ folder name, folder <+: p → ¬ Holds s IsAny folder name) ∧
      ∀ q, nearest? s p = some q →
        ∃ folder name, q = folder ++ [name] ∧ IsNearest s IsAny p folder name := by
  induction p using List.reverseRecOn with
  | nil =>
    have hroot : nearest? s [] = inFolder? s [] := by
      show [[]].findSome? (inFolder? s) = _
      rw [List.findSome?_singleton]
    obtain ⟨hnone, hsome⟩ := inFolder?_spec htree []
    rw [hroot]
    constructor
    · intro h folder name hfolder
      rw [List.prefix_nil.mp hfolder]
      exact hnone h name
    · intro q hq
      obtain ⟨name, hq, hholds, hleast⟩ := hsome q hq
      exact ⟨[], name, hq, List.nil_prefix, hholds, fun other _ hother _ => hother, hleast⟩
  | append_singleton p last ih =>
    obtain ⟨hnone, hsome⟩ := inFolder?_spec htree (p ++ [last])
    obtain ⟨ihnone, ihsome⟩ := ih
    rw [nearest?_concat]
    cases hhere : inFolder? s (p ++ [last]) with
    | some q =>
      obtain ⟨name, hq, hholds, hleast⟩ := hsome q hhere
      refine ⟨by simp, ?_⟩
      intro q' hq'
      obtain rfl := Option.some.inj hq'
      exact ⟨p ++ [last], name, hq, List.prefix_refl _, hholds, fun other _ hother _ => hother,
        hleast⟩
    | none =>
      -- nothing is in this folder, so what is above it decides
      rw [Option.none_or]
      have habove : ∀ folder name, folder <+: p ++ [last] → Holds s IsAny folder name →
          folder <+: p := by
        intro folder name hfolder hholds
        rcases List.prefix_concat_iff.mp hfolder with rfl | hfolder
        · exact absurd hholds (hnone hhere name)
        · exact hfolder
      constructor
      · intro h folder name hfolder hholds
        exact ihnone h folder name (habove folder name hfolder hholds) hholds
      · intro q hq
        obtain ⟨folder, name, hq, hnearest⟩ := ihsome q hq
        refine ⟨folder, name, hq, hnearest.above.trans (List.prefix_append _ _), hnearest.holds, ?_,
          hnearest.least⟩
        intro other name' hother hholds
        exact hnearest.deepest other name' (habove other name' hother hholds) hholds

/-- **The nearest project is the nearest project file exactly if it is a file.** -/
theorem IsNearest.regular_iff (h : IsNearest s IsAny p folder name) :
    IsNearest s IsRegular p folder name ↔ s.entry? (folder ++ [name]) ≠ some .folder := by
  constructor
  · rintro ⟨_, ⟨_, e, he, hregular⟩, _⟩ hfolder
    exact hregular (Option.some.inj (he.symm.trans hfolder))
  · intro hnot
    obtain ⟨hends, e, he, _⟩ := h.holds
    have hregular : IsRegular e := by
      rintro rfl
      exact hnot he
    exact ⟨h.above, ⟨hends, e, he, hregular⟩,
      fun other name' hother hholds => h.deepest other name' hother hholds.any,
      fun name' hholds => h.least name' hholds.any⟩

/-! ### The start -/

/-- **A name has a suffix if it ends in it and something is before it.** -/
theorem suffix_eq_iff : path.suffix = fileSuffix ↔
    path.name.endsWith fileSuffix = true ∧ path.name ≠ fileSuffix := by
  have hdot : .char '.' ∉ Text.ofString "uproject" := by decide
  have hsuffix : fileSuffix = .char '.' :: Text.ofString "uproject" := rfl
  unfold Path.suffix Path.splitName Text.endsWith
  rw [List.isSuffixOf_iff_suffix]
  constructor
  · intro h
    split at h
    · next stem after hcut =>
      split at h
      · cases h
      · next hne =>
        have hname := Store.eq_of_cutLast? hcut
        have hafter : CodePoint.char '.' :: after = fileSuffix := h
        rw [hafter] at hname
        refine ⟨⟨stem, hname.symm⟩, ?_⟩
        intro hwhole
        have hstem : stem = [] := List.append_left_eq_self.mp (hname.symm.trans hwhole)
        exact hne (by simp [hstem])
    · cases h
  · rintro ⟨⟨stem, hname⟩, hne⟩
    rw [hsuffix] at hname
    have hstem : stem ≠ [] := by
      rintro rfl
      exact hne hname.symm
    have hempty : stem.isEmpty = false := by simpa using hstem
    rw [← hname, Text.cutLast?_append hdot]
    simp only [hempty]
    rfl

theorem isProper_expandHome {p : Path} (hp : p.IsProper) (h : expandHome host p = .ok path) :
    path.IsProper := by
  unfold expandHome at h
  split at h
  · next anchor user more hanchor hnames =>
    split at h
    · next home _ =>
      split at h
      · cases h
      · obtain rfl := Except.ok.inj h
        intro name hname
        rcases List.mem_append.mp hname with hname | hname
        · exact Path.isProper_ofText home name hname
        · exact hp name (hnames ▸ List.mem_cons_of_mem _ hname)
    · cases h
  · obtain rfl := Except.ok.inj h
    exact hp

/-- What is found under a path is found when the path is looked at. -/
theorem probe_of_find (hfind : s.find path.toText = .ok entry) :
    probe s path = .ok (some entry) := by
  unfold probe Store.probe
  rw [hfind]
  rfl

theorem resolve_eq (h : path.IsProper) (husable : ∀ name ∈ path.names, Store.Usable name) :
    resolve s path = .ok (s.resolve path) := by
  obtain ⟨hnull, henc⟩ := Store.usable_iff.mp ((Store.usable_toText h).mpr husable)
  unfold resolve
  rw [if_neg hnull, Utf8.encode_eq_ok_iff.mpr ⟨henc, rfl⟩]

/-- A file stands in the folder to which the path above it is resolved, and has the last name on
    the path. -/
theorem place_of_file (htree : s.IsTree) (h : path.IsProper)
    (hlocate : s.locate path.toText = .ok p) (hentry : s.entry? p = some entry)
    (hfile : entry ≠ .folder) :
    p = p.dropLast ++ [path.name] ∧ s.resolve path.parent = p.dropLast := by
  have hfollow := Store.follow_of_locate_toText h hlocate
  have hnotFolder : s.entry? p ≠ some .folder := by
    intro hfolder
    exact hfile (Option.some.inj (hentry.symm.trans hfolder))
  rcases List.eq_nil_or_concat path.names with hnil | ⟨front, last, hnames⟩
  · -- a path without names leads to the root or to the working directory
    rw [hnil] at hfollow
    obtain rfl := Except.ok.inj hfollow
    unfold Store.start at hnotFolder
    split at hnotFolder
    · exact absurd htree.workingDir hnotFolder
    · exact absurd rfl hnotFolder
  · rw [List.concat_eq_append] at hnames
    have hlast : last ∈ path.names := by simp [hnames]
    rw [hnames] at hfollow
    obtain ⟨q, habove, henter⟩ := Store.follow_append_singleton hfollow
    have hname : path.name = last := by
      unfold Path.name
      rw [hnames, List.getLast?_concat]
      rfl
    have hparent : s.resolve path.parent = q := by
      have hdots : ∀ name ∈ front, name ≠ (("." : String) : Text) := by
        intro name hmem
        exact (h name (by simp [hnames, hmem])).2.2
      have hfront : path.parent = ⟨path.anchor, front⟩ := by
        unfold Path.parent
        rw [hnames, List.dropLast_concat]
      rw [hfront]
      exact Store.resolveNames_of_follow hdots habove
    rcases Store.eq_of_enter henter with ⟨hdot, _⟩ | ⟨_, rfl⟩ | rfl
    · exact absurd hdot (h last hlast).2.2
    · -- above a folder there is none but folders
      exact absurd (htree.folder_above (Store.folder_of_enter henter)) hnotFolder
    · rw [List.dropLast_concat, hname, hparent]
      exact ⟨rfl, rfl⟩

/-- Holds of a start that is found itself: a file with a name before its suffix. -/
def IsItself (p : Place) (entry : Entry) : Prop :=
  entry ≠ .folder ∧ ∃ above name, p = above ++ [name] ∧
    name.endsWith fileSuffix = true ∧ name ≠ fileSuffix

/-- The folder from which the search goes up. -/
def searchFrom (p : Place) (entry : Entry) : Place := if entry = .folder then p else p.dropLast

theorem isItself_iff (htree : s.IsTree) (h : path.IsProper)
    (hlocate : s.locate path.toText = .ok p) (hentry : s.entry? p = some entry) :
    IsItself p entry ↔ path.suffix = fileSuffix ∧ isFile (some entry) = true := by
  cases entry with
  | folder => exact iff_of_false (fun h => h.1 rfl) (fun h => by cases h.2)
  | file bytes program =>
    obtain ⟨hp, _⟩ := place_of_file htree h hlocate hentry (by simp)
    rw [suffix_eq_iff]
    constructor
    · rintro ⟨_, above, name, habove, hends, hne⟩
      rw [habove, List.dropLast_concat] at hp
      obtain rfl := (List.cons.inj (List.append_cancel_left hp)).1
      exact ⟨⟨hends, hne⟩, rfl⟩
    · rintro ⟨⟨hends, hne⟩, _⟩
      exact ⟨by simp, p.dropLast, path.name, hp, hends, hne⟩

/-- The search starts from the start, or from the folder of a file. -/
theorem resolve_searchFrom (htree : s.IsTree) (h : path.IsProper)
    (hlocate : s.locate path.toText = .ok p) (hentry : s.entry? p = some entry) :
    resolve s path = .ok p ∧
      resolve s (if some entry = some .folder then path else path.parent) =
        .ok (searchFrom p entry) := by
  have husable : ∀ name ∈ path.names, Store.Usable name :=
    (Store.usable_toText h).mp (Store.locate_eq_ok_iff.mp hlocate).2.1
  have hresolve : resolve s path = .ok p := by
    rw [resolve_eq h husable, Store.resolve_of_locate h hlocate]
  refine ⟨hresolve, ?_⟩
  unfold searchFrom
  by_cases hfile : entry = .folder
  · rw [if_pos (congrArg some hfile), if_pos hfile, hresolve]
  · obtain ⟨_, hparent⟩ := place_of_file htree h hlocate hentry hfile
    rw [if_neg (fun h => hfile (Option.some.inj h)), if_neg hfile,
      resolve_eq h.parent fun name hname => husable name (List.dropLast_subset _ hname), hparent]

/-- What is asked of a start that is there. -/
theorem find_eq {start : Text} (hhome : expandHome host (Path.ofText start) = .ok path)
    (hfind : s.find path.toText = .ok entry) :
    find host s start =
      if path.suffix = fileSuffix ∧ isFile (some entry) = true then
        (resolve s path).map fun p => some (Store.pathOf p)
      else (resolve s (if some entry = some .folder then path else path.parent)).map
        fun p => (nearest? s p).map Store.pathOf := by
  unfold find
  rw [hhome]
  by_cases hsuffix : path.suffix = fileSuffix
  · simp only [bind, Except.bind, probe_of_find hfind, Except.map, hsuffix, true_and,
      if_true]
    cases isFile (some entry) <;> rfl
  · simp only [bind, Except.bind, probe_of_find hfind, hsuffix, false_and, if_false]
    rfl

/-- **What is found from a start that is there.**  A file with a suffix is found itself.  From
    anything else the nearest name that ends in the suffix is found, and none only if there is
    none; it is the nearest project file exactly if it is the name of no folder. -/
theorem find_nearest {start : Text} (htree : s.IsTree)
    (hhome : expandHome host (Path.ofText start) = .ok path)
    (hfind : s.find path.toText = .ok entry) :
    ∃ p found, s.locate path.toText = .ok p ∧ s.entry? p = some entry ∧
      find host s start = .ok (found.map Store.pathOf) ∧
      (IsItself p entry → found = some p) ∧
      (¬ IsItself p entry →
        (found = none → ∀ folder name, folder <+: searchFrom p entry →
          ¬ Holds s IsAny folder name) ∧
        ∀ q, found = some q → ∃ folder name, q = folder ++ [name] ∧
          IsNearest s IsAny (searchFrom p entry) folder name ∧
          (IsNearest s IsRegular (searchFrom p entry) folder name ↔
            s.entry? q ≠ some .folder)) := by
  have hproper := isProper_expandHome (Path.isProper_ofText start) hhome
  obtain ⟨p, hlocate, hentry, _⟩ := Store.find_eq_ok_iff.mp hfind
  have hitself := isItself_iff htree hproper hlocate hentry
  obtain ⟨hresolve, hfolder⟩ := resolve_searchFrom htree hproper hlocate hentry
  have hvalue := find_eq hhome hfind
  by_cases his : IsItself p entry
  · rw [if_pos (hitself.mp his), hresolve] at hvalue
    exact ⟨p, some p, hlocate, hentry, hvalue, fun _ => rfl, fun h => absurd his h⟩
  · rw [if_neg fun h => his (hitself.mpr h), hfolder] at hvalue
    obtain ⟨hnone, hsome⟩ := nearest?_spec htree (searchFrom p entry)
    refine ⟨p, nearest? s (searchFrom p entry), hlocate, hentry, hvalue, fun h => absurd h his, ?_⟩
    intro _
    refine ⟨hnone, ?_⟩
    intro q hq
    obtain ⟨folder, name, rfl, hnearest⟩ := hsome q hq
    exact ⟨folder, name, rfl, hnearest, hnearest.regular_iff⟩

/-- A project whose only entry with the suffix is a folder. -/
def folderNamedProject : Store :=
  ⟨[], [(["P"], .folder), (["P", "X.uproject"], .folder)]⟩

/-- The folder is found, though it is no project file. -/
theorem find_nearest_folder :
    ∃ folder name, find ⟨.linux, "/h", [], none, "/p"⟩ folderNamedProject "P" =
        .ok (some (Store.pathOf (folder ++ [name]))) ∧
      IsNearest folderNamedProject IsAny ["P"] folder name ∧
      ¬ IsNearest folderNamedProject IsRegular ["P"] folder name := by
  have htree : folderNamedProject.IsTree := ⟨by decide, by decide⟩
  have hhome : expandHome ⟨.linux, "/h", [], none, "/p"⟩ (Path.ofText "P") =
      .ok ⟨.relative, ["P"]⟩ := by rfl
  have hthere : folderNamedProject.find (Path.toText ⟨.relative, ["P"]⟩) = .ok .folder := by rfl
  have hplace : folderNamedProject.locate (Path.toText ⟨.relative, ["P"]⟩) = .ok ["P"] := by rfl
  obtain ⟨p, found, hlocate, _, hfind, _, hsearch⟩ := find_nearest htree hhome hthere
  obtain rfl := Except.ok.inj (hlocate.symm.trans hplace)
  obtain ⟨_, hsome⟩ := hsearch fun his => his.1 rfl
  cases found with
  | none =>
    have hvalue : find ⟨.linux, "/h", [], none, "/p"⟩ folderNamedProject "P" ≠ .ok none := by
      intro h
      cases h
    exact absurd hfind hvalue
  | some q =>
    obtain ⟨folder, name, rfl, hnearest, hregular⟩ := hsome q rfl
    refine ⟨folder, name, hfind, hnearest, ?_⟩
    have hall : ∀ pair ∈ folderNamedProject.entries, pair.2 = .folder := by decide
    obtain ⟨_, e, he, _⟩ := hnearest.holds
    have hfolder : e = .folder := hall _ (Store.mem_entries (by simp) he)
    rw [hfolder] at he
    exact fun hfile => hregular.mp hfile he

end Project

end ClangDb
