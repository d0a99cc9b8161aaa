import ClangDb.Proofs.FileStore.Write
import ClangDb.Proofs.Text.Occurrence
import Mathlib.Data.List.TakeWhile

/-! # Paths of folders that are made

    A folder is made together with those above it, from the shortest path down.
    Each path on the way is shorter than the one below it, which is what the fuel
    of the recursion counts.

    Making folders puts nothing in place of what is there, so that files stay
    where they are and paths lead where they led.

    Key theorems:
    - `length_splitLast`: the path above is shorter,
    - `usable_of_makeFolders`: a path whose folder is made is usable,
    - `addsFolders_makeFolders`: the files and the folders that were there stay.
-/

namespace ClangDb

namespace Store

variable {s : Store} {path : Text}

/-! ### The path above -/

/-- A path that is cut at its last slash. -/
theorem eq_of_cutLast? {sep : CodePoint} {before after : Text}
    (h : path.cutLast? sep = some (before, after)) : path = before ++ sep :: after := by
  simp only [Text.cutLast?] at h
  have hspan := List.span_eq_takeWhile_dropWhile (· ≠ sep) path.reverse
  split at h
  · cases h
  · next front c back heq =>
    obtain ⟨rfl, rfl⟩ := Prod.mk.inj (Option.some.inj h)
    rw [heq] at hspan
    obtain ⟨hfront, hback⟩ := Prod.mk.inj hspan
    -- what stops the search from the end is a separator
    have hc : c = sep := by
      have hhead := List.head?_dropWhile_not (· ≠ sep) path.reverse
      rw [← hback] at hhead
      simpa using hhead
    have hpath : path.reverse = front ++ c :: back := by
      rw [hfront, hback, List.takeWhile_append_dropWhile]
    rw [← List.reverse_reverse path, hpath, hc]
    simp

/-- A path cut at its last slash: the part above without the slashes at its end,
    unless it has nothing else. -/
theorem splitLast_cases (path : Text) :
    splitLast path = ([], path) ∨
      ∃ before, path = before ++ .char '/' :: (splitLast path).2 ∧
        (splitLast path).1 = (if (before.trimRight (· = .char '/')).isEmpty
          then before ++ "/" else before.trimRight (· = .char '/')) := by
  cases h : path.cutLast? '/' with
  | none =>
    left
    simp [splitLast, h]
  | some parts =>
    obtain ⟨before, name⟩ := parts
    right
    refine ⟨before, ?_, ?_⟩
    · simpa [splitLast, h] using eq_of_cutLast? h
    · simp [splitLast, h]

theorem length_trimRight_le (p : CodePoint → Bool) (t : Text) :
    (t.trimRight p).length ≤ t.length := by
  rw [Text.trimRight, List.length_reverse]
  exact (List.dropWhile_sublist p).length_le.trans (List.length_reverse).le

/-- The path above is no longer than the path, and shorter if a name follows it. -/
theorem length_splitLast (path : Text) :
    (splitLast path).1.length ≤ path.length ∧
      ((splitLast path).2 ≠ [] → (splitLast path).1.length < path.length) := by
  rcases splitLast_cases path with h | ⟨before, hpath, habove⟩
  · rw [h]
    exact ⟨Nat.zero_le _, fun hne => List.length_pos_iff.mpr hne⟩
  · have hlen : path.length = before.length + (1 + (splitLast path).2.length) := by
      conv => lhs; rw [hpath]
      simp only [List.length_append, List.length_cons]
      omega
    -- a slash is put back where nothing else is left
    have hle : (splitLast path).1.length ≤ before.length + 1 := by
      rw [habove]
      split
      · show (before ++ [CodePoint.char '/']).length ≤ before.length + 1
        simp
      · have := length_trimRight_le (· = CodePoint.char '/') before
        omega
    refine ⟨by omega, fun hne => ?_⟩
    have := List.length_pos_iff.mpr hne
    omega

/-- The code points of a path are those of the path above, of the last name, and slashes. -/
theorem mem_splitLast {c : CodePoint} (h : c ∈ path) :
    c ∈ (splitLast path).1 ∨ c = .char '/' ∨ c ∈ (splitLast path).2 := by
  rcases splitLast_cases path with hs | ⟨before, hpath, habove⟩
  · rw [hs]
    exact .inr (.inr h)
  · rw [hpath] at h
    rcases List.mem_append.mp h with h | h
    · by_cases hc : c = .char '/'
      · exact .inr (.inl hc)
      · left
        rw [habove]
        split
        · exact List.mem_append_left _ h
        · rw [← Text.trimRight_append_takeWhile (· = CodePoint.char '/') before] at h
          rcases List.mem_append.mp h with h | h
          · exact h
          · have := List.mem_takeWhile_imp (List.mem_reverse.mp h)
            exact absurd (by simpa using this) hc
    · rcases List.mem_cons.mp h with h | h
      · exact .inr (.inl h)
      · exact .inr (.inr h)

/-! ### Making folders -/

/-- The store is asked about a folder that it makes, or does not make for a reason. -/
theorem usable_of_makeFolder (h : IsAnswer (s.makeFolder path)) : Usable path := by
  have hwalk : IsAnswer (s.locate path) := by
    cases hl : s.locate path with
    | ok p => trivial
    | error e =>
      rw [makeFolder, hl] at h
      cases e <;> exact h
  exact (isAnswer_walk_iff _).mp hwalk

/-- One folder is made, unless it is there. -/
def makeOne (s : Store) (path : Text) : Store × Except AccessError Unit :=
  match s.makeFolder path with
  | .ok s => (s, .ok ())
  | .error (.file e) => (s, if s.isFolder path then .ok () else .error (.file e))
  | .error e => (s, .error e)

theorem usable_of_makeOne (h : IsAnswer (s.makeOne path).2) : Usable path := by
  apply usable_of_makeFolder (s := s)
  unfold makeOne at h
  split at h
  · next hok =>
    rw [hok]
    trivial
  · next hfile =>
    rw [hfile]
    trivial
  · next e hne he =>
    cases e with
    | file e => exact absurd rfl (hne e)
    | embeddedNull => cases h
    | unencodable e => cases h

/-- The part of a path above the one that is made, and the name of the latter. -/
def parts (path : Text) : Text × Text :=
  match splitLast path with
  | (head, []) => splitLast head
  | parts => parts

theorem parts_cases (path : Text) :
    parts path = splitLast path ∨
      (splitLast path).2 = [] ∧ parts path = splitLast (splitLast path).1 := by
  unfold parts
  split
  · next head heq =>
    right
    rw [heq]
    exact ⟨rfl, rfl⟩
  · exact .inl rfl

theorem length_parts_lt (h : (parts path).2 ≠ []) : (parts path).1.length < path.length := by
  rcases parts_cases path with hp | ⟨_, hp⟩
  · rw [hp] at h ⊢
    exact (length_splitLast path).2 h
  · rw [hp] at h ⊢
    exact Nat.lt_of_lt_of_le ((length_splitLast _).2 h) (length_splitLast path).1

theorem mem_parts {c : CodePoint} (h : c ∈ path) :
    c ∈ (parts path).1 ∨ c = .char '/' ∨ c ∈ (parts path).2 := by
  rcases parts_cases path with hp | ⟨hnil, hp⟩
  · rw [hp]
    exact mem_splitLast h
  · rw [hp]
    rcases mem_splitLast h with h | h | h
    · exact mem_splitLast h
    · exact .inr (.inl h)
    · rw [hnil] at h
      cases h

/-- A path is usable if the part above it is and its last name is. -/
theorem usable_of_parts (h₁ : Usable (parts path).1)
    (h₂ : Usable (parts path).2) : Usable path := by
  intro c hc
  rcases mem_parts hc with h | rfl | h
  · exact h₁ c h
  · exact ⟨by decide, rfl⟩
  · exact h₂ c h

theorem usable_dot : Usable (Text.ofString ".") := by
  intro c hc
  obtain rfl := List.mem_singleton.mp hc
  exact ⟨by decide, rfl⟩

theorem makeFoldersWith_succ (s : Store) (path : Text) (fuel : Nat) :
    s.makeFoldersWith path (fuel + 1) =
      if !(parts path).1.isEmpty && !(parts path).2.isEmpty && !s.reaches (parts path).1 then
        match s.makeFoldersWith (parts path).1 fuel with
        | (s, .error e) =>
          if e matches .file ⟨.exists, _⟩ then
            if (parts path).2 = ("." : Text) then (s, .ok ()) else s.makeOne path
          else (s, .error e)
        | (s, .ok ()) => if (parts path).2 = ("." : Text) then (s, .ok ()) else s.makeOne path
      else s.makeOne path :=
  rfl

/-- Holds of an outcome after which the folder is there, made just now or before. -/
def IsThere (result : Except AccessError Unit) : Prop :=
  result = .ok () ∨ ∃ p, result = .error (.file ⟨.exists, p⟩)

theorem IsThere.isAnswer {result : Except AccessError Unit} (h : IsThere result) :
    IsAnswer result := by
  rcases h with rfl | ⟨p, rfl⟩ <;> trivial

/-- A failure of the folders above is a failure of the folder, unless they are there. -/
theorem usable_of_makeFoldersWith {fuel : Nat} (hfuel : path.length < fuel)
    (h : IsThere (s.makeFoldersWith path fuel).2) : Usable path := by
  induction fuel generalizing s path with
  | zero => exact absurd hfuel (Nat.not_lt_zero _)
  | succ fuel ih =>
    rw [makeFoldersWith_succ] at h
    split at h
    · next hcond =>
      have htail : (parts path).2 ≠ [] := by
        intro hnil
        simp [hnil] at hcond
      have hshort : (parts path).1.length < fuel := by
        have := length_parts_lt htail
        omega
      -- a dot is not made, but it can be written
      have hdot : (parts path).2 = ("." : Text) → Usable (parts path).1 →
          Usable path := fun hname habove =>
        usable_of_parts habove (hname ▸ usable_dot)
      split at h
      · next s₁ e heq =>
        split at h
        · next p =>
          have hthere : IsThere (s.makeFoldersWith (parts path).1 fuel).2 := by
            rw [heq]
            exact .inr ⟨p, rfl⟩
          rw [if_pos rfl] at h
          split at h
          · next hname => exact hdot hname (ih hshort hthere)
          · exact usable_of_makeOne h.isAnswer
        · next hne =>
          -- the failure is passed on, and it is not that a folder is there
          rw [if_neg (by simp)] at h
          rcases h with h | ⟨p, h⟩
          · cases h
          · exact absurd (Except.error.inj h) (hne p)
      · next s₁ heq =>
        split at h
        · next hname =>
          have hthere : IsThere (s.makeFoldersWith (parts path).1 fuel).2 := by
            rw [heq]
            exact .inl rfl
          exact hdot hname (ih hshort hthere)
        · exact usable_of_makeOne h.isAnswer
    · exact usable_of_makeOne h.isAnswer

/-- **A path whose folder is made is usable.** -/
theorem usable_of_makeFolders (h : (s.makeFolders path).2 = .ok ()) : Usable path :=
  usable_of_makeFoldersWith (Nat.lt_succ_self _) (.inl h)

/-! ### What stays -/

/-- Holds of two stores of which the second has the folders of the first and the same files. -/
structure AddsFolders (s s' : Store) : Prop where
  keeps : KeepsFolders s s'
  files : ∀ p bytes program,
    s'.entry? p = some (.file bytes program) ↔ s.entry? p = some (.file bytes program)

theorem AddsFolders.refl (s : Store) : AddsFolders s s :=
  ⟨KeepsFolders.refl s, fun _ _ _ => Iff.rfl⟩

theorem AddsFolders.trans {s' t : Store} (h : AddsFolders s s') (h' : AddsFolders s' t) :
    AddsFolders s t :=
  ⟨h.keeps.trans h'.keeps,
    fun p bytes program => (h'.files p bytes program).trans (h.files p bytes program)⟩

/-- A file is read where it was read before folders were added. -/
theorem AddsFolders.read {s' : Store} {bytes : List UInt8} (h : AddsFolders s s')
    (hread : s.read path = .ok bytes) : s'.read path = .ok bytes := by
  obtain ⟨program, hfind⟩ := read_eq_ok_iff.mp hread
  obtain ⟨p, hlocate, hentry, hneeds⟩ := find_eq_ok_iff.mp hfind
  exact read_eq_ok_iff.mpr ⟨program, find_eq_ok_iff.mpr
    ⟨p, h.keeps.locate hlocate, (h.files p bytes program).mpr hentry, hneeds⟩⟩

/-- A folder is made where nothing stands. -/
theorem addsFolders_makeFolder {s' : Store} (h : s.makeFolder path = .ok s') :
    AddsFolders s s' := by
  unfold makeFolder at h
  cases hl : s.locate path with
  | error _ =>
    rw [hl] at h
    cases h
  | ok p =>
    rw [hl] at h
    simp only [bind, Except.bind] at h
    split at h
    · cases h
    · next hnone =>
      obtain rfl := Except.ok.inj h
      have hfolder := ne_folder_of_none hnone
      refine ⟨keepsFolders_put hfolder, fun q bytes program => ?_⟩
      by_cases hq : q = p
      · rw [hq, entry?_put_self hfolder, hnone]
        simp
      · rw [entry?_put_ne hq]

theorem addsFolders_makeOne (s : Store) (path : Text) : AddsFolders s (s.makeOne path).1 := by
  unfold makeOne
  split
  · next hok => exact addsFolders_makeFolder hok
  · exact AddsFolders.refl s
  · exact AddsFolders.refl s

theorem addsFolders_makeFoldersWith (s : Store) (path : Text) (fuel : Nat) :
    AddsFolders s (s.makeFoldersWith path fuel).1 := by
  induction fuel generalizing s path with
  | zero => exact AddsFolders.refl s
  | succ fuel ih =>
    have habove := ih s (parts path).1
    rw [makeFoldersWith_succ]
    split
    · -- the folders above come first, whether or not the last one is made then
      split
      · next s₁ e heq =>
        rw [heq] at habove
        split
        · rw [if_pos rfl]
          split
          · exact habove
          · exact habove.trans (addsFolders_makeOne s₁ path)
        · rw [if_neg (by simp)]
          exact habove
      · next s₁ heq =>
        rw [heq] at habove
        split
        · exact habove
        · exact habove.trans (addsFolders_makeOne s₁ path)
    · exact addsFolders_makeOne s path

/-- **Making folders leaves all files as they were.** -/
theorem addsFolders_makeFolders (s : Store) (path : Text) :
    AddsFolders s (s.makeFolders path).1 :=
  addsFolders_makeFoldersWith s path _

end Store

end ClangDb
