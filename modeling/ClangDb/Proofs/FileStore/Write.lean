import ClangDb.FileStore.Basic
import ClangDb.Proofs.Text.Utf8

/-! # What a written file holds

    Writing sets the entry at one place and leaves all others.  The names on a
    path lead through folders, and a file is never written in place of a folder,
    so every path leads to the same place before and after.

    Key theorems:
    - `entry?_put_ne`: the frame condition,
    - `isAnswer_walk_iff`: the paths that the store answers about,
    - `locate_put_iff`: paths lead where they led,
    - `find_eq_ok_iff`: what is found under a path,
    - `read_write`: a file is read as it was written.
-/

namespace ClangDb

namespace Store

variable {s s' : Store} {p q : Place} {e : Entry} {path : Text}

/-! ### Entries -/

theorem lookup_update_self (entries : List (Place × Entry)) :
    lookup p (update p e entries) = some e := by
  induction entries with
  | nil => simp [update, lookup]
  | cons head r ih =>
    obtain ⟨q, old⟩ := head
    by_cases h : q = p
    · simp [update, lookup, h]
    · simp [update, lookup, h, ih]

theorem lookup_update_ne (entries : List (Place × Entry)) (h : q ≠ p) :
    lookup q (update p e entries) = lookup q entries := by
  induction entries with
  | nil => simp [update, lookup, Ne.symm h]
  | cons head r ih =>
    obtain ⟨q', old⟩ := head
    by_cases hp : q' = p
    · have hq : p ≠ q := Ne.symm h
      simp [update, lookup, hp, hq]
    · by_cases hq : q' = q
      · simp [update, lookup, hq, h]
      · simp [update, lookup, hp, hq, ih]

theorem mem_of_lookup {entries : List (Place × Entry)} (h : lookup p entries = some e) :
    (p, e) ∈ entries := by
  induction entries with
  | nil => cases h
  | cons pair entries ih =>
    obtain ⟨q, old⟩ := pair
    rw [lookup] at h
    by_cases hq : q = p
    · rw [if_pos hq] at h
      rw [hq, Option.some.inj h]
      exact List.mem_cons_self
    · rw [if_neg hq] at h
      exact List.mem_cons_of_mem _ (ih h)

theorem exists_lookup_of_mem {entries : List (Place × Entry)} (h : (p, e) ∈ entries) :
    ∃ e', lookup p entries = some e' := by
  induction entries with
  | nil => cases h
  | cons pair entries ih =>
    obtain ⟨q, old⟩ := pair
    rw [lookup]
    by_cases hq : q = p
    · rw [if_pos hq]
      exact ⟨old, rfl⟩
    · rw [if_neg hq]
      rcases List.mem_cons.mp h with h | h
      · exact absurd (Prod.mk.inj h).1.symm hq
      · exact ih h

theorem mem_entries (hp : p ≠ []) (he : s.entry? p = some e) : (p, e) ∈ s.entries := by
  unfold entry? at he
  rw [if_neg hp] at he
  exact mem_of_lookup he

theorem ne_folder_of_none (h : s.entry? p = none) : s.entry? p ≠ some .folder := by
  rw [h]
  simp

/-- What is put where no folder stands, and so not in place of the root, stands there. -/
theorem entry?_put_self (hp : s.entry? p ≠ some .folder) :
    Store.entry? (s.put p e) p = some e := by
  have hroot : p ≠ [] := by
    intro hnil
    apply hp
    simp [ entry?, hnil]
  simp only [ entry?, hroot, if_false]
  exact lookup_update_self s.entries

/-- What stands elsewhere stays. -/
theorem entry?_put_ne (h : q ≠ p) : Store.entry? (s.put p e) q = s.entry? q := by
  by_cases hq : q = []
  · simp [ entry?, hq]
  · simp only [ entry?, hq, if_false]
    exact lookup_update_ne s.entries h

/-! ### Paths -/

/-- Holds of two stores of which the second has the working directory of the first and
    all its folders. -/
structure KeepsFolders (s s' : Store) : Prop where
  workingDir : s'.workingDir = s.workingDir
  folder : ∀ q, s.entry? q = some .folder → s'.entry? q = some .folder

theorem KeepsFolders.refl (s : Store) : KeepsFolders s s :=
  ⟨rfl, fun _ h => h⟩

theorem KeepsFolders.trans {t : Store} (h : KeepsFolders s s') (h' : KeepsFolders s' t) :
    KeepsFolders s t :=
  ⟨h'.workingDir.trans h.workingDir, fun q hq => h'.folder q (h.folder q hq)⟩

/-- A name that leads somewhere from a folder does so as long as the folder is there. -/
theorem KeepsFolders.enter {name : Text} {r : Place} (hs : KeepsFolders s s')
    (h : s.enter q name = .ok r) : s'.enter q name = .ok r := by
  -- nothing but a folder is entered
  have hq : s.entry? q = some .folder := by
    unfold Store.enter at h
    split at h
    · cases h
    · cases h
    · assumption
  rw [← h]
  simp only [Store.enter, hq, hs.folder q hq]

theorem KeepsFolders.follow {names : List Text} {r : Place} (hs : KeepsFolders s s')
    (h : s.follow q names = .ok r) : s'.follow q names = .ok r := by
  induction names generalizing q with
  | nil => exact h
  | cons name more ih =>
    simp only [Store.follow] at h ⊢
    cases hn : s.enter q name with
    | error cause =>
      rw [hn] at h
      cases h
    | ok q' =>
      rw [hn] at h
      rw [hs.enter hn]
      exact ih h

/-- Holds of a path that the store can be asked about: it has bytes, and none is null. -/
def Usable (path : Text) : Prop :=
  ∀ c ∈ path, c ≠ .char '\x00' ∧ (Utf8.encodeUnit? c).isSome

theorem usable_iff {path : Text} :
    Usable path ↔ .char '\x00' ∉ path ∧ Utf8.Encodable path := by
  constructor
  · intro h
    exact ⟨fun hnull => (h _ hnull).1 rfl, fun c hc => (h c hc).2⟩
  · rintro ⟨hnull, henc⟩ c hc
    exact ⟨fun he => hnull (he ▸ hc), henc c hc⟩

/-- Holds of an outcome other than that a path is no path at all. -/
def IsAnswer {α : Type} : Except AccessError α → Prop
  | .ok _ => True
  | .error (.file _) => True
  | .error _ => False

/-- A usable path is followed from where it starts. -/
theorem walk_of_usable (s : Store) (names : List Text) (h : Usable path) :
    ∃ bytes, Utf8.encode path = .ok bytes ∧ s.walk path names =
      if path.isEmpty then .error (.file ⟨.notFound, path⟩)
      else if pathLimit ≤ bytes.length then .error (.file ⟨.nameTooLong, path⟩)
      else (s.follow (if path.startsWith "/" then [] else s.workingDir) names).mapError
        fun cause => .file ⟨cause, path⟩ := by
  obtain ⟨hnull, henc⟩ := usable_iff.mp h
  have hbytes : Utf8.encode path = .ok (Utf8.bytesOf path) := Utf8.encode_eq_ok_iff.mpr ⟨henc, rfl⟩
  refine ⟨Utf8.bytesOf path, hbytes, ?_⟩
  simp only [walk, if_neg hnull, hbytes]

/-- **The store answers exactly about usable paths.** -/
theorem isAnswer_walk_iff (names : List Text) :
    IsAnswer (s.walk path names) ↔ Usable path := by
  constructor
  · intro h
    simp only [walk] at h
    split at h
    · cases h
    · next hnull =>
      cases hb : Utf8.encode path with
      | error _ =>
        rw [hb] at h
        cases h
      | ok bytes => exact usable_iff.mpr ⟨hnull, (Utf8.encode_eq_ok_iff.mp hb).1⟩
  · intro h
    obtain ⟨bytes, _, hwalk⟩ := walk_of_usable s names h
    rw [hwalk]
    split
    · trivial
    · split
      · trivial
      · cases s.follow (if path.startsWith "/" then [] else s.workingDir) names <;> trivial

theorem usable_of_walk {names : List Text} {r : Place} (h : s.walk path names = .ok r) :
    Usable path := by
  apply (isAnswer_walk_iff names).mp
  rw [h]
  trivial

/-- A path leads to the place to which its names lead from where it starts. -/
theorem follow_of_walk {names : List Text} {r : Place} (h : s.walk path names = .ok r) :
    path ≠ [] ∧ s.follow (if path.startsWith "/" then [] else s.workingDir) names = .ok r := by
  have husable := usable_of_walk h
  obtain ⟨bytes, _, hwalk⟩ := walk_of_usable s names husable
  rw [hwalk] at h
  split at h
  · cases h
  · next hempty =>
    refine ⟨fun hnil => hempty (by rw [hnil]; rfl), ?_⟩
    split at h
    · cases h
    · cases hf : s.follow (if path.startsWith "/" then [] else s.workingDir) names with
      | error cause =>
        rw [hf] at h
        cases h
      | ok r' =>
        rw [hf] at h
        rw [Except.ok.inj h]

theorem KeepsFolders.walk {names : List Text} {r : Place} (hs : KeepsFolders s s')
    (h : s.walk path names = .ok r) : s'.walk path names = .ok r := by
  have hf := (follow_of_walk h).2
  have husable := usable_of_walk h
  -- the two stores differ in nothing but what the names lead to
  have hf' : s'.follow (if path.startsWith "/" then [] else s'.workingDir) names = .ok r := by
    rw [hs.workingDir]
    exact hs.follow hf
  obtain ⟨bytes, hbytes, hwalk⟩ := walk_of_usable s names husable
  obtain ⟨bytes', hbytes', hwalk'⟩ := walk_of_usable s' names husable
  obtain rfl := Except.ok.inj (hbytes.symm.trans hbytes')
  rw [hwalk, hf] at h
  rw [hwalk', hf']
  exact h

/-- A path leads to the same place as long as the folders are there. -/
theorem KeepsFolders.locate {r : Place} (hs : KeepsFolders s s') (h : s.locate path = .ok r) :
    s'.locate path = .ok r :=
  hs.walk h

/-- Nothing that is put where no folder stands takes a folder away. -/
theorem keepsFolders_put (hp : s.entry? p ≠ some .folder) : KeepsFolders s (s.put p e) := by
  refine ⟨rfl, fun q hq => ?_⟩
  have hne : q ≠ p := fun he => hp (he ▸ hq)
  rw [entry?_put_ne hne, hq]

/-- A file that is put where no folder stands adds no folder. -/
theorem keepsFolders_of_put {bytes : List UInt8} {program : Option Program}
    (hp : s.entry? p ≠ some .folder) :
    KeepsFolders (s.put p (.file bytes program)) s := by
  refine ⟨rfl, fun q hq => ?_⟩
  by_cases he : q = p
  · rw [he, entry?_put_self hp] at hq
    cases hq
  · rwa [entry?_put_ne he] at hq

/-- **Paths lead where they led before a file was put where no folder stands.** -/
theorem locate_put_iff {bytes : List UInt8} {program : Option Program} {r : Place}
    (hp : s.entry? p ≠ some .folder) :
    (s.put p (.file bytes program)).locate path = .ok r ↔ s.locate path = .ok r :=
  ⟨(keepsFolders_of_put hp).locate, (keepsFolders_put hp).locate⟩

/-! ### Files -/

/-- The store answers about writing exactly to usable paths. -/
theorem isAnswer_writable_iff : IsAnswer (s.writable path) ↔ Usable path := by
  unfold writable
  by_cases hneeds : needsFolder path = true
  · rw [if_pos hneeds, ← isAnswer_walk_iff (s := s) (namesOn path).dropLast]
    cases hw : s.walk path (namesOn path).dropLast with
    | error e => rfl
    | ok p =>
      simp only [bind, Except.bind]
      cases s.entry? p with
      | none => rfl
      | some e => cases e <;> rfl
  · rw [if_neg hneeds, ← isAnswer_walk_iff (s := s) (namesOn path)]
    unfold locate
    cases hw : s.walk path (namesOn path) with
    | error e => rfl
    | ok p =>
      simp only [bind, Except.bind]
      split <;> rfl

/-- **What is found under a path** stands where the path leads, and is a folder if the path can
    denote a folder only. -/
theorem find_eq_ok_iff :
    s.find path = .ok e ↔ ∃ p, s.locate path = .ok p ∧ s.entry? p = some e ∧
      (needsFolder path = true → e = .folder) := by
  unfold find
  cases hl : s.locate path with
  | error _ =>
    constructor
    · intro h
      cases h
    · rintro ⟨_, hl', _⟩
      cases hl'
  | ok p =>
    simp only [bind, Except.bind]
    constructor
    · intro h
      refine ⟨p, rfl, ?_⟩
      split at h
      · cases h
      · next bytes program hp =>
        split at h
        · cases h
        · next hneeds =>
          obtain rfl := Except.ok.inj h
          exact ⟨hp, fun hn => absurd hn hneeds⟩
      · next hp =>
        obtain rfl := Except.ok.inj h
        exact ⟨hp, fun _ => rfl⟩
    · rintro ⟨q, hl', hp, hneeds⟩
      obtain rfl := Except.ok.inj hl'
      rw [hp]
      cases e with
      | folder => rfl
      | file bytes program =>
        have hfile : needsFolder path = false := by
          rw [Bool.eq_false_iff]
          intro hn
          cases hneeds hn
        simp only [hfile, Bool.false_eq_true, if_false]

theorem read_eq_ok_iff {bytes : List UInt8} :
    s.read path = .ok bytes ↔ ∃ program, s.find path = .ok (.file bytes program) := by
  unfold read
  cases s.find path with
  | error _ =>
    constructor
    · intro h
      cases h
    · rintro ⟨_, h⟩
      cases h
  | ok e =>
    cases e with
    | folder =>
      constructor
      · intro h
        cases h
      · rintro ⟨_, h⟩
        cases h
    | file b program =>
      constructor
      · intro h
        obtain rfl := Except.ok.inj h
        exact ⟨program, rfl⟩
      · rintro ⟨_, h⟩
        obtain ⟨rfl, _⟩ := Entry.file.inj (Except.ok.inj h)
        rfl

/-- A path that is written is the path of a place where no folder stands. -/
theorem writable_spec (h : s.writable path = .ok p) :
    needsFolder path = false ∧ s.locate path = .ok p ∧ s.entry? p ≠ some .folder := by
  simp only [writable] at h
  split at h
  · cases hw : s.walk path (namesOn path).dropLast with
    | error _ =>
      rw [hw] at h
      cases h
    | ok q =>
      rw [hw] at h
      simp only [bind, Except.bind] at h
      split at h <;> cases h
  · next hneeds =>
    cases hl : s.locate path with
    | error _ =>
      rw [hl] at h
      cases h
    | ok q =>
      rw [hl] at h
      simp only [bind, Except.bind] at h
      split at h
      · cases h
      · next hfolder =>
        obtain rfl := Except.ok.inj h
        exact ⟨by simpa using hneeds, rfl, hfolder⟩

theorem writable_eq_ok_iff : s.writable path = .ok p ↔
    needsFolder path = false ∧ s.locate path = .ok p ∧ s.entry? p ≠ some .folder := by
  refine ⟨writable_spec, ?_⟩
  rintro ⟨hneeds, hlocate, hfolder⟩
  unfold writable
  rw [if_neg (by simp [hneeds]), hlocate]
  exact if_neg hfolder

theorem write_spec {bytes : List UInt8} (h : s.write path bytes = .ok s') :
    ∃ p, s.writable path = .ok p ∧ s' = s.put p (.file bytes none) := by
  cases hw : s.writable path with
  | error _ =>
    rw [write, hw] at h
    cases h
  | ok p =>
    rw [write, hw] at h
    exact ⟨p, rfl, (Except.ok.inj h).symm⟩

/-- **A file is read as it was written.** -/
theorem read_write {bytes : List UInt8} (h : s.write path bytes = .ok s') :
    s'.read path = .ok bytes := by
  obtain ⟨p, hw, rfl⟩ := write_spec h
  obtain ⟨hneeds, hlocate, hfolder⟩ := writable_spec hw
  -- the path leads to the same place, where the file stands now
  exact read_eq_ok_iff.mpr ⟨none, find_eq_ok_iff.mpr ⟨p, (keepsFolders_put hfolder).locate hlocate,
    entry?_put_self hfolder, fun hn => absurd hn (by simp [hneeds])⟩⟩

end Store

end ClangDb
