import ClangDb.Path.Separator
import ClangDb.Proofs.FileStore.Folders
import ClangDb.Proofs.FileStore.Overlay

/-! # The path above a path

    A path is cut before its last name when its folder is made.  The part above is
    a beginning of the path with all of its names but the last, and it does not
    end in a slash unless it has nothing else.  So if the path leads somewhere, the
    part above leads to a folder.

    Key theorems:
    - `namesOn_append_slash`: the names before and behind a slash,
    - `namesOn_parts`: the names on the part above,
    - `locate_parts`: where the part above leads,
    - `locate_append_name`: where a name behind the path of a folder leads.
-/

namespace ClangDb

namespace Store

variable {s : Store} {path front : Text} {p : Place}

/-! ### Names before and behind a slash -/

theorem splitAt_append_cons {sep : CodePoint} (a b : Text) :
    Text.splitAt sep (a ++ sep :: b) = Text.splitAt sep a ++ Text.splitAt sep b := by
  induction a with
  | nil =>
    show Text.splitAt sep (sep :: b) = [] :: Text.splitAt sep b
    rw [Text.splitAt, if_pos rfl]
  | cons c a ih =>
    rw [List.cons_append, Text.splitAt, Text.splitAt, ih]
    by_cases hc : c = sep
    · rw [if_pos hc, if_pos hc, List.cons_append]
    · rw [if_neg hc, if_neg hc]
      have hnone : sep ∉ ([] : Text) := List.not_mem_nil
      obtain ⟨pieces, last, hpieces, _⟩ := splitAt_append hnone a
      rw [hpieces]
      cases pieces <;> rfl

/-- **The names on a path are those before a slash and those behind it.** -/
theorem namesOn_append_slash (a b : Text) :
    namesOn (a ++ .char '/' :: b) = namesOn a ++ namesOn b := by
  unfold namesOn
  rw [splitAt_append_cons, List.filter_append]

/-- A text without slashes is one name, unless it is empty. -/
theorem namesOn_of_not_mem {name : Text} (h : .char '/' ∉ name) :
    namesOn name = if name = [] then [] else [name] := by
  unfold namesOn
  rw [splitAt_of_not_mem h]
  by_cases hnil : name = []
  · simp [hnil]
  · simp [hnil]

theorem namesOn_slashes {slashes : Text} (h : ∀ c ∈ slashes, c = .char '/') :
    namesOn slashes = [] := by
  induction slashes with
  | nil => rfl
  | cons c slashes ih =>
    obtain rfl := h c List.mem_cons_self
    rw [← List.nil_append (CodePoint.char '/' :: slashes), namesOn_append_slash]
    exact ih fun d hd => h d (List.mem_cons_of_mem _ hd)

/-- Slashes at the end of a path add no names. -/
theorem namesOn_trimRight (path : Text) :
    namesOn (path.trimRight (· = .char '/')) = namesOn path := by
  have hparts := Text.trimRight_append_takeWhile (· = CodePoint.char '/') path
  have hslashes : ∀ c ∈ (path.reverse.takeWhile (· = CodePoint.char '/')).reverse,
      c = .char '/' := by
    intro c hc
    simpa using List.mem_takeWhile_imp (List.mem_reverse.mp hc)
  generalize path.trimRight (· = .char '/') = trimmed at hparts ⊢
  generalize (path.reverse.takeWhile (· = CodePoint.char '/')).reverse = slashes at hparts hslashes
  rw [← hparts]
  cases slashes with
  | nil => rw [List.append_nil]
  | cons c slashes =>
    obtain rfl := hslashes c List.mem_cons_self
    rw [namesOn_append_slash,
      namesOn_slashes fun d hd => hslashes d (List.mem_cons_of_mem _ hd), List.append_nil]

/-! ### Bare paths -/

/-- Holds of a path that does not end in a slash, unless it has nothing else. -/
def Bare (path : Text) : Prop := needsFolder path = false ∨ namesOn path = []

theorem bare_trimRight (path : Text) : Bare (path.trimRight (· = .char '/')) := by
  left
  rw [Bool.eq_false_iff]
  intro hneeds
  obtain ⟨front, hfront⟩ := List.isSuffixOf_iff_suffix.mp hneeds
  have hhead := List.head?_dropWhile_not (· = CodePoint.char '/') path.reverse
  have hrev : path.reverse.dropWhile (· = CodePoint.char '/') = .char '/' :: front.reverse := by
    rw [← List.reverse_reverse (path.reverse.dropWhile _)]
    show (path.trimRight (· = .char '/')).reverse = _
    rw [← hfront]
    exact List.reverse_append
  rw [hrev] at hhead
  simp at hhead

/-- A folder's path without the slashes at its end is bare. -/
theorem bare_withoutTrailing (path : Text) : Bare (Path.withoutTrailing path) := by
  unfold Path.withoutTrailing
  split
  · exact .inr rfl
  · exact bare_trimRight path

/-! ### The part above -/

theorem not_mem_splitLast (path : Text) : .char '/' ∉ (splitLast path).2 := by
  have hspan := List.span_eq_takeWhile_dropWhile (· ≠ CodePoint.char '/') path.reverse
  unfold splitLast Text.cutLast?
  rw [hspan]
  cases hback : path.reverse.dropWhile (· ≠ CodePoint.char '/') with
  | nil =>
    intro h
    have hall := List.dropWhile_eq_nil_iff.mp hback
    simpa using hall _ (List.mem_reverse.mpr h)
  | cons c back =>
    intro h
    have hname := List.mem_takeWhile_imp (List.mem_reverse.mp h)
    simp at hname

/-- What a path is cut into: a bare beginning, and its last name unless it ends in a slash. -/
theorem splitLast_spec (path : Text) :
    (splitLast path).1 <+: path ∧ Bare (splitLast path).1 ∧
      namesOn path = namesOn (splitLast path).1 ++ namesOn (splitLast path).2 := by
  rcases splitLast_cases path with h | ⟨before, hpath, habove⟩
  · rw [h]
    exact ⟨ List.nil_prefix, .inr rfl, rfl⟩
  · have hnames : namesOn path = namesOn before ++ namesOn (splitLast path).2 := by
      conv => lhs; rw [hpath]
      exact namesOn_append_slash _ _
    by_cases hslashes : (before.trimRight (· = .char '/')).isEmpty = true
    · -- a slash is put back where nothing else is left
      rw [if_pos hslashes] at habove
      have hnone : namesOn before = [] := by
        rw [← namesOn_trimRight, List.isEmpty_iff.mp hslashes]
        rfl
      have hhead : namesOn (splitLast path).1 = [] := by
        rw [habove]
        show namesOn (before ++ [CodePoint.char '/']) = []
        rw [namesOn_append_slash, hnone]
        rfl
      refine ⟨?_, .inr hhead, ?_⟩
      · refine ⟨(splitLast path).2, ?_⟩
        rw [habove]
        conv => rhs; rw [hpath]
        exact List.append_assoc _ _ _
      · rw [hnames, hnone, hhead]
    · rw [if_neg hslashes] at habove
      refine ⟨?_, ?_, ?_⟩
      · rw [habove]
        conv => rhs; rw [hpath]
        exact (Text.trimRight_begins _ before).trans (List.prefix_append _ _)
      · rw [habove]
        exact bare_trimRight before
      · rw [habove, namesOn_trimRight]
        exact hnames

/-- The part above is a bare beginning of the path. -/
theorem parts_begins (path : Text) : (parts path).1 <+: path ∧ Bare (parts path).1 := by
  have hlast := splitLast_spec path
  rcases parts_cases path with h | ⟨_, h⟩
  · rw [h]
    exact ⟨hlast.1, hlast.2.1⟩
  · have habove := splitLast_spec (splitLast path).1
    rw [h]
    exact ⟨habove.1.trans hlast.1, habove.2.1⟩

/-- **The part above has all names of the path but the last.** -/
theorem namesOn_parts (h : (parts path).2 ≠ []) :
    namesOn path = namesOn (parts path).1 ++ [(parts path).2] := by
  have hlast := (splitLast_spec path).2.2
  rcases parts_cases path with hparts | ⟨hnil, hparts⟩
  · rw [hparts] at h ⊢
    rw [hlast, namesOn_of_not_mem (not_mem_splitLast path), if_neg h]
  · rw [hparts] at h ⊢
    rw [hlast, hnil, (splitLast_spec (splitLast path).1).2.2,
      namesOn_of_not_mem (not_mem_splitLast _), if_neg h]
    exact List.append_nil _

/-- A path that does not end in a slash has a last name, to which a suffix adds. -/
theorem namesOn_append_file {suffix : Text} (hne : path ≠ []) (hneeds : needsFolder path = false)
    (hslash : .char '/' ∉ suffix) :
    ∃ front last, namesOn path = front ++ [last] ∧
      namesOn (path ++ suffix) = front ++ [last ++ suffix] := by
  have hname := not_mem_splitLast path
  have hnames : ∀ {name : Text}, .char '/' ∉ name → name ≠ [] →
      namesOn name = [name] ∧ namesOn (name ++ suffix) = [name ++ suffix] := by
    intro name hno hname
    have hlonger : .char '/' ∉ name ++ suffix := by simp [hno, hslash]
    rw [namesOn_of_not_mem hno, namesOn_of_not_mem hlonger, if_neg hname, if_neg (by simp [hname])]
    exact ⟨rfl, rfl⟩
  rcases splitLast_cases path with h | ⟨before, hpath, _⟩
  · rw [h] at hname
    exact ⟨[], path, hnames hname hne⟩
  · have hlast : (splitLast path).2 ≠ [] := by
      intro hnil
      rw [hnil] at hpath
      have hends : needsFolder path = true :=
        List.isSuffixOf_iff_suffix.mpr ⟨before, hpath.symm⟩
      rw [hneeds] at hends
      cases hends
    obtain ⟨hone, hlonger⟩ := hnames hname hlast
    generalize (splitLast path).2 = last at hpath hone hlonger
    refine ⟨namesOn before, last, ?_, ?_⟩
    · rw [hpath, namesOn_append_slash, hone]
    · rw [hpath, List.append_assoc, List.cons_append, namesOn_append_slash, hlonger]

/-! ### Where the part above leads -/

theorem origin_of_begins (h : front <+: path) (hne : front ≠ []) :
    s.origin front = s.origin path := by
  obtain ⟨rest, rfl⟩ := h
  cases front with
  | nil => exact absurd rfl hne
  | cons c front => rfl

/-- A beginning of a path leads where its names lead. -/
theorem locate_of_begins {q : Place} (h : s.locate path = .ok p) (hbegin : front <+: path)
    (hne : front ≠ []) (hfollow : s.follow (s.origin path) (namesOn front) = .ok q) :
    s.locate front = .ok q := by
  obtain ⟨_, husable, hshort, _⟩ := locate_eq_ok_iff.mp h
  refine locate_eq_ok_iff.mpr ⟨hne, fun c hc => husable c (hbegin.subset hc), ?_, ?_⟩
  · -- the beginning is no longer than the path
    obtain ⟨rest, rfl⟩ := hbegin
    rw [Utf8.bytesOf_append, List.length_append] at hshort
    omega
  · unfold LeadsTo
    rw [origin_of_begins hbegin hne]
    exact hfollow

/-- **What a long name leads to behind a folder's path stands in this folder**, however the path
    of the folder is written. -/
theorem locate_append_name {name : Text} (hne : front ≠ []) (hslash : .char '/' ∉ name)
    (hlong : 2 < name.length) (h : s.locate (front ++ "/" ++ name) = .ok p) :
    ∃ q, s.locate front = .ok q ∧ s.entry? q = some .folder ∧ p = q ++ [name] := by
  rw [List.append_assoc] at h
  have hname : name ≠ [] := by
    rintro rfl
    exact absurd hlong (by decide)
  have hnames : namesOn (front ++ ("/" ++ name)) = namesOn front ++ [name] := by
    show namesOn (front ++ .char '/' :: name) = _
    rw [namesOn_append_slash, namesOn_of_not_mem hslash, if_neg hname]
  have hfollow := follow_of_locate h
  rw [hnames] at hfollow
  obtain ⟨q, habove, henter⟩ := follow_append_singleton hfollow
  exact ⟨q, locate_of_begins h (List.prefix_append _ _) hne habove, folder_of_enter henter,
    eq_of_enter_long hlong henter⟩

/-- **If a path leads somewhere, the part above leads to a folder**, from where the last name
    leads on. -/
theorem locate_parts (h : s.locate path = .ok p) (hhead : (parts path).1 ≠ [])
    (htail : (parts path).2 ≠ []) :
    ∃ q, s.locate (parts path).1 = .ok q ∧ s.entry? q = some .folder ∧
      s.enter q (parts path).2 = .ok p := by
  have hfollow := follow_of_locate h
  rw [namesOn_parts htail] at hfollow
  obtain ⟨q, habove, henter⟩ := follow_append_singleton hfollow
  exact ⟨q, locate_of_begins h (parts_begins path).1 hhead habove, folder_of_enter henter, henter⟩

end Store

end ClangDb
