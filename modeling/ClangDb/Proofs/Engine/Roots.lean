import ClangDb.Proofs.Engine.Detection
import ClangDb.Proofs.Project.Search

/-! # The root of a detected engine

    On Windows the registry comes first, then the usual folders in their order; a
    root counts if its folder `Engine` is there.  What is given back is not the root
    that was asked about but its normalized spelling.  Without a backslash this is
    another spelling of the same folder.  A backslash, which is a part of a name
    where slashes separate names, becomes a slash, and the root that is given back
    may be no folder at all.

    Key theorems:
    - `holdsEngine_eq_true_iff`: the roots that count,
    - `firstWithEngine_spec`: the first one that does,
    - `HasEngine.normalize`: roots that count as they are given back,
    - `detect_chosen`: which root is given back, and when there is none.
-/

namespace ClangDb

namespace Engine

variable {host : Host} {s : Store} {name root : Text} {path : Path} {roots : List Path} {w : World}

/-! ### Roots that count -/

/-- Holds of a root whose folder `Engine` is there. -/
def HasEngine (s : Store) (root : Path) : Prop := s.isFolder (root.join "Engine").toText = true

theorem holdsEngine_eq_true_iff : holdsEngine s path = .ok true ↔ HasEngine s path := by
  unfold holdsEngine Project.probe Store.probe HasEngine Store.isFolder
  cases s.find (path.join "Engine").toText with
  | ok entry =>
    cases entry with
    | folder => exact iff_of_true rfl rfl
    | file bytes program => exact iff_of_false (by simp [Except.mapError, Except.map]) (by simp)
  | error e =>
    refine iff_of_false ?_ (by simp)
    cases e with
    | file e =>
      simp only
      split <;> simp [Except.mapError, Except.map]
    | _ => simp [Except.mapError, Except.map]

theorem not_hasEngine_of_false (h : holdsEngine s path = .ok false) : ¬ HasEngine s path := by
  intro hhas
  rw [holdsEngine_eq_true_iff.mpr hhas] at h
  cases h

/-- **The first root that counts**, or that none does. -/
theorem firstWithEngine_spec {found : Option Path} (h : firstWithEngine s roots = .ok found) :
    (found = none → ∀ root ∈ roots, ¬ HasEngine s root) ∧
      ∀ root, found = some root →
        FirstOf (¬ HasEngine s ·) (fun _ r => HasEngine s r ∧ r = root) roots := by
  induction roots with
  | nil =>
    obtain rfl := Except.ok.inj h
    exact ⟨by simp, by simp⟩
  | cons first roots ih =>
    rw [firstWithEngine] at h
    cases hholds : holdsEngine s first with
    | error e =>
      rw [hholds] at h
      cases h
    | ok holds =>
      rw [hholds] at h
      cases holds with
      | true =>
        obtain rfl := Except.ok.inj h
        refine ⟨by simp, ?_⟩
        intro root hroot
        exact firstOf_cons_iff.mpr
          (.inl ⟨holdsEngine_eq_true_iff.mp hholds, Option.some.inj hroot⟩)
      | false =>
        have hnot := not_hasEngine_of_false hholds
        obtain ⟨hnone, hsome⟩ := ih h
        refine ⟨?_, fun root hroot => firstOf_cons_iff.mpr (.inr ⟨hnot, hsome root hroot⟩)⟩
        exact fun hfound => List.forall_mem_cons.mpr ⟨hnot, hnone hfound⟩

theorem leadsDown_engine : Store.LeadsDown "Engine" where
  long := by decide
  noSlash := by decide
  encodable := Utf8.encodable_ofString "Engine"
  short := by decide

/-- The folder `Engine` of a root that counts stands in the folder to which the root leads. -/
theorem HasEngine.exists_folder (h : HasEngine s (Path.ofText root)) :
    ∃ p, s.entry? (p ++ [Text.ofString "Engine"]) = some .folder ∧ s.entry? p = some .folder ∧
      s.LeadsTo root p := by
  obtain ⟨q, hlocate, hentry⟩ := Store.isFolder_iff.mp h
  obtain ⟨_, _, _, hleads⟩ := Store.locate_eq_ok_iff.mp hlocate
  obtain ⟨p, hfolder, habove, rfl⟩ :=
    (leadsDown_engine.join (Path.isProper_ofText root)).mp hleads
  exact ⟨p, hentry, hfolder, (Store.leadsTo_ofText hfolder).mp habove⟩

/-- **A root without backslashes still counts when it is normalized.** -/
theorem HasEngine.normalize (h : HasEngine s (Path.ofText root)) (hroot : .char '\\' ∉ root) :
    HasEngine s (Path.ofText (Path.normalize root)) := by
  unfold Path.normalize
  rw [Text.substitute_of_not_mem hroot, Store.ofText_collapse]
  split
  · exact h
  · next hanchor =>
    obtain ⟨q, hlocate, hentry⟩ := Store.isFolder_iff.mp h
    have hjoin := leadsDown_engine.join_eq
    refine Store.isFolder_iff.mpr ⟨q, ?_, hentry⟩
    have hanchor' : ((Path.ofText root).join "Engine").anchor ≠ .relative := by
      rw [hjoin]
      exact hanchor
    have hroot := Store.locate_root hanchor' hlocate
    rw [hjoin] at hroot ⊢
    exact hroot

/-- The text of a root and of its folder `Engine`, as it is given back. -/
theorem HasEngine.append (h : HasEngine s (Path.ofText root)) (hne : root ≠ [])
    (hroot : .char '\\' ∉ root) :
    ∃ p, s.entry? p = some .folder ∧ s.LeadsTo (Path.normalize root ++ "/Engine") p := by
  obtain ⟨p, hentry, hfolder, hleads⟩ := h.exists_folder
  refine ⟨_, hentry, ?_⟩
  have htext : Path.normalize root ++ "/Engine" = Path.normalize root ++ "/" ++ "Engine" := by
    rw [List.append_assoc]
    rfl
  rw [htext, leadsDown_engine.append (Path.normalize_ne_nil hne)]
  exact ⟨p, hfolder, (Store.leadsTo_normalize hroot).mpr hleads, rfl⟩

/-! ### The root that is chosen -/

/-- Holds of a machine whose registry has a root for an association, and of the root. -/
def InRegistry (host : Host) (name root : Text) : Prop :=
  host.platform = .windows ∧
    registered? host (registryPlace name).1 (registryPlace name).2 = some (.string root)

/-- Holds of the root that is chosen for an association, as it is written where it is found. -/
inductive Chosen (host : Host) (s : Store) (name : Text) : Text → Prop where
  /-- The registry has it. -/
  | registered {root : Text} : InRegistry host name root → HasEngine s (Path.ofText root) →
      Chosen host s name root
  /-- The registry has none that counts, and it is the first usual one that does. -/
  | usual {roots : List Path} {root : Path} :
      (∀ other, InRegistry host name other → ¬ HasEngine s (Path.ofText other)) →
      candidates host name (isIdentifier name) = .ok roots →
      FirstOf (¬ HasEngine s ·) (fun _ r => HasEngine s r ∧ r = root) roots →
      Chosen host s name root.toText

/-- Holds of an association for which no root counts. -/
structure NoneCounts (host : Host) (s : Store) (name : Text) : Prop where
  registered : ∀ root, InRegistry host name root → ¬ HasEngine s (Path.ofText root)
  usual : ∀ roots, candidates host name (isIdentifier name) = .ok roots →
    ∀ root ∈ roots, ¬ HasEngine s root

/-- **An identifier is looked for in the registry alone.** -/
theorem candidates_of_identifier (h : isIdentifier name = true) :
    candidates host name (isIdentifier name) = .ok [] := by
  rw [h]
  rfl

theorem Chosen.inRegistry (h : Chosen host s name root) (hname : isIdentifier name = true) :
    InRegistry host name root := by
  cases h with
  | registered hregistry _ => exact hregistry
  | usual _ hroots hfirst =>
    rw [candidates_of_identifier hname] at hroots
    obtain rfl := Except.ok.inj hroots
    exact absurd hfirst not_firstOf_nil

/-- The usual roots have proper names. -/
theorem isProper_of_candidates {identified : Bool}
    (h : candidates host name identified = .ok roots) : ∀ root ∈ roots, root.IsProper := by
  have hread := Path.isProper_ofText
  unfold candidates at h
  cases identified with
  | true =>
    obtain rfl := Except.ok.inj h
    simp
  | false =>
    cases hplatform : host.platform with
    | windows =>
      rw [hplatform] at h
      obtain rfl := Except.ok.inj h
      simp [hread]
    | mac =>
      simp only [hplatform, Bool.false_eq_true, if_false] at h
      obtain ⟨home, hhome, h⟩ := bind_eq_ok_iff.mp h
      obtain rfl := Except.ok.inj h
      have hhome := Project.isProper_expandHome (hread _) hhome
      simp [hread, hhome.join]
    | linux =>
      simp only [hplatform, Bool.false_eq_true, if_false] at h
      obtain ⟨home, hhome, h⟩ := bind_eq_ok_iff.mp h
      obtain rfl := Except.ok.inj h
      have hhome := Project.isProper_expandHome (hread _) hhome
      simp [hread, hhome.join]

/-- A root that is chosen counts. -/
theorem Chosen.hasEngine (h : Chosen host s name root) : HasEngine s (Path.ofText root) := by
  cases h with
  | registered _ hhas => exact hhas
  | usual _ hroots hfirst =>
    obtain ⟨front, root, back, rfl, _, hhas, rfl⟩ := hfirst
    have hproper := isProper_of_candidates hroots root (by simp)
    rwa [Path.ofText_toText hproper]

/-- What the registry is asked, and what it answers. -/
theorem rootOfRegistry_spec {found : Option Text} (h : rootOfRegistry host s name = .ok found) :
    (∀ root, found = some root → InRegistry host name root ∧ HasEngine s (Path.ofText root)) ∧
      (found = none → ∀ root, InRegistry host name root → ¬ HasEngine s (Path.ofText root)) := by
  unfold rootOfRegistry at h
  by_cases hwindows : host.platform = .windows
  · rw [if_pos hwindows, rootInRegistry_eq, registeredRoot] at h
    cases hvalue : registered? host (registryPlace name).1 (registryPlace name).2 with
    | none =>
      rw [hvalue] at h
      obtain rfl := Except.ok.inj h
      refine ⟨by simp, ?_⟩
      rintro _ root ⟨_, hroot⟩
      rw [hvalue] at hroot
      cases hroot
    | some v =>
      rw [hvalue] at h
      cases v with
      | string root =>
        simp only at h
        split at h
        · next htrue =>
          obtain rfl := Except.ok.inj h
          refine ⟨?_, by simp⟩
          intro other hother
          obtain rfl := Option.some.inj hother
          exact ⟨⟨hwindows, hvalue⟩, holdsEngine_eq_true_iff.mp htrue⟩
        · next hnot =>
          obtain rfl := Except.ok.inj h
          refine ⟨by simp, ?_⟩
          rintro _ other ⟨_, hother⟩ hhas
          obtain rfl := Json.string.inj (Option.some.inj (hvalue.symm.trans hother))
          exact hnot (holdsEngine_eq_true_iff.mpr hhas)
      | _ => cases h
  · rw [if_neg hwindows] at h
    obtain rfl := Except.ok.inj h
    exact ⟨by simp, fun _ root hroot => absurd hroot.1 hwindows⟩

/-- **Which root is chosen**, and that none is only where none counts. -/
theorem root_spec {found : Option Text} (h : Engine.root host s name = .ok found) :
    (∀ root, found = some root → Chosen host s name root) ∧
      (found = none → NoneCounts host s name) := by
  rw [root_eq] at h
  obtain ⟨registered, hregistry, h⟩ := bind_eq_ok_iff.mp h
  obtain ⟨hsome, hnone⟩ := rootOfRegistry_spec hregistry
  cases registered with
  | some root =>
    obtain rfl := Except.ok.inj h
    refine ⟨?_, by simp⟩
    intro other hother
    obtain rfl := Option.some.inj hother
    obtain ⟨hin, hhas⟩ := hsome _ rfl
    exact .registered hin hhas
  | none =>
    obtain ⟨roots, hroots, h⟩ := bind_eq_ok_iff.mp h
    obtain ⟨first, hfirst, h⟩ := bind_eq_ok_iff.mp h
    obtain rfl := Except.ok.inj h
    obtain ⟨hnotAny, hfirstOf⟩ := firstWithEngine_spec hfirst
    cases first with
    | some root =>
      refine ⟨?_, by simp⟩
      intro other hother
      obtain rfl := Option.some.inj hother
      exact .usual (hnone rfl) hroots (hfirstOf _ rfl)
    | none =>
      refine ⟨by simp, fun _ => ⟨hnone rfl, ?_⟩⟩
      intro roots' hroots'
      obtain rfl := Except.ok.inj (hroots.symm.trans hroots')
      exact hnotAny rfl

/-! ### The engine that is detected -/

theorem install_spec {found : Option Install} (h : install host s name = .ok found) :
    (∀ i, found = some i → ∃ root, Engine.root host s name = .ok (some root) ∧
      i.root = Path.normalize root ∧ version s i.root = .ok i.version) ∧
    (found = none → Engine.root host s name = .ok none) := by
  unfold install at h
  obtain ⟨root, hroot, h⟩ := bind_eq_ok_iff.mp h
  cases root with
  | none =>
    obtain rfl := Except.ok.inj h
    exact ⟨by simp, fun _ => hroot⟩
  | some root =>
    obtain ⟨x, hversion, h⟩ := bind_eq_ok_iff.mp h
    obtain rfl := Except.ok.inj h
    refine ⟨?_, by simp⟩
    intro i hi
    obtain rfl := Option.some.inj hi
    exact ⟨root, hroot, rfl, hversion⟩

/-- A project file that holds a document has the engine of its association. -/
theorem run_detect_of_documents {file : Text} {document : Json}
    (hdocument : Documents w.store (Path.ofText file).toText document)
    (hget : document.get? "EngineAssociation" = some (.string name)) (hname : name ≠ []) :
    ((detect host file).run w).1 = install host w.store name := by
  obtain ⟨bytes, text, hread, htext, hjson⟩ := hdocument
  have hassociation : association document = .ok (some name) := by
    unfold association
    rw [hget]
    simp [hname]
  unfold detect
  simp only [Task.run_bind, Task.run_store, hread, htext, hjson, hassociation]
  rfl

/-- **The root of a detected engine.**  It is the normalized spelling of the root that the
    registry has, if that one counts, and else of the first usual root that does; an identifier
    has no usual roots.  A root without backslashes still counts as it is given back, and unless
    it is empty its text with the name of the folder behind it leads to the folder.  No engine is
    detected only if no root counts. -/
theorem detect_chosen {file : Text} {document : Json}
    (hdocument : Documents w.store (Path.ofText file).toText document)
    (hget : document.get? "EngineAssociation" = some (.string name)) (hname : name ≠ []) :
    (∀ found, ((detect host file).run w).1 = .ok (some found) →
      ∃ root, Chosen host w.store name root ∧ found.root = Path.normalize root ∧
        version w.store found.root = .ok found.version ∧
        (isIdentifier name = true → InRegistry host name root) ∧
        (.char '\\' ∉ root → HasEngine w.store (Path.ofText found.root) ∧
          (root ≠ [] → ∃ p, w.store.entry? p = some .folder ∧
            w.store.LeadsTo (found.root ++ "/Engine") p))) ∧
    (((detect host file).run w).1 = .ok none → NoneCounts host w.store name) ∧
    (isIdentifier name = true → candidates host name (isIdentifier name) = .ok []) := by
  rw [run_detect_of_documents hdocument hget hname]
  refine ⟨?_, ?_, candidates_of_identifier⟩
  · intro found hfound
    obtain ⟨root, hroot, hspelled, hversion⟩ := (install_spec hfound).1 found rfl
    have hchosen := (root_spec hroot).1 root rfl
    refine ⟨root, hchosen, hspelled, hversion, hchosen.inRegistry, ?_⟩
    intro hbackslash
    rw [hspelled]
    exact ⟨hchosen.hasEngine.normalize hbackslash,
      fun hne => hchosen.hasEngine.append hne hbackslash⟩
  · intro hnone
    exact (root_spec ((install_spec hnone).2 rfl)).2 rfl

/-! ### A root with a backslash -/

/-- What a project file holds that names its engine by a text with a backslash. -/
def backslashFile : Text := "\x7b\"EngineAssociation\":\"a\\\\b\"\x7d"

/-- A home folder with an engine of that name, and the project. -/
def backslashWorld : World where
  store := ⟨[], [(["G.uproject"], .file (Utf8.bytesOf backslashFile) none), (["h"], .folder),
    (["h", "UnrealEngine"], .folder), (["h", "UnrealEngine", "UE_a\\b"], .folder),
    (["h", "UnrealEngine", "UE_a\\b", "Engine"], .folder)]⟩
  records := []
  calls := []

/-- The engine is found, and the root that is given back is not there. -/
theorem detect_chosen_backslash :
    ∃ root found, Chosen ⟨.linux, "/h", [], none, "/p"⟩ backslashWorld.store "a\\b" root ∧
      ((detect ⟨.linux, "/h", [], none, "/p"⟩ "G.uproject").run backslashWorld).1 =
        .ok (some found) ∧
      found.root = Path.normalize root ∧ found.root = Text.ofString "/h/UnrealEngine/UE_a/b" ∧
      ¬ HasEngine backslashWorld.store (Path.ofText found.root) ∧
      backslashWorld.store.isFolder (found.root ++ "/Engine") = false := by
  -- the document and the engine are evaluated once
  obtain ⟨hassociation, hfound⟩ :
      (Json.read (Text.universal backslashFile)).toOption.bind
          (fun document => (association document).toOption) =
        some (some (Text.ofString "a\\b")) ∧
      ((detect ⟨.linux, "/h", [], none, "/p"⟩ "G.uproject").run backslashWorld).1.toOption =
        some (some ⟨"/h/UnrealEngine/UE_a/b", usualVersion⟩) := by
    decide +kernel
  obtain ⟨document, hread, hassociation⟩ := Option.bind_eq_some_iff.mp hassociation
  have hdocument : Documents backslashWorld.store (Path.ofText "G.uproject").toText document :=
    ⟨Utf8.bytesOf backslashFile, backslashFile, by decide +kernel, by decide +kernel,
      eq_ok_of_toOption hread⟩
  have hfound := eq_ok_of_toOption hfound
  rcases association_cases document with ⟨name, hname, hget, hname'⟩ | ⟨_, _, _, _, hnone⟩ |
    ⟨_, hnone⟩
  · rw [hname'] at hassociation
    obtain rfl := Option.some.inj (Option.some.inj hassociation)
    obtain ⟨hdetects, _, _⟩ := detect_chosen hdocument hget hname
    obtain ⟨root, hchosen, hspelled, _⟩ := hdetects _ hfound
    refine ⟨root, _, hchosen, hfound, hspelled, rfl, ?_, by decide +kernel⟩
    unfold HasEngine
    decide +kernel
  · rw [hnone] at hassociation
    cases hassociation
  · rw [hnone] at hassociation
    cases hassociation

end Engine

end ClangDb
