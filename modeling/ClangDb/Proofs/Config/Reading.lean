import ClangDb.Config.Basic
import ClangDb.Proofs.FileStore.Write
import ClangDb.Proofs.World

/-! # How reading a configuration ends

    Reading ends with a configuration, or the file is refused: it is missing,
    malformed, of another version, or lacks what it has to state.  Beyond that
    some files stumble: a value is of a type, or of a size, that the step which
    uses it does not take, and reading ends with that step's own fault.

    The predicates below list what stumbles, in the order in which the faults
    count: a value that comes later does not matter once one before it has
    stumbled or was refused.

    Key theorems:
    - `stumbles_bind_iff`: where a sequence of steps stumbles,
    - `stumbles_ofMembers_iff`: which members stumble,
    - `stumbles_ofBytes_iff`: which contents of the file do,
    - `load_stumbles_iff`: which files do.
-/

namespace ClangDb

namespace Config

variable {α β : Type} {members : List (Text × Json)} {entries : List Json} {v : Json} {e : Fault}

/-! ### Sequences -/

/-- Holds of a result that is a fault other than a refusal. -/
def Stumbles (r : Except Fault α) (e : Fault) : Prop := r = .error e ∧ ∀ c, e ≠ .config c

theorem not_stumbles_ok (a : α) : ¬ Stumbles (.ok a) e := by
  rintro ⟨h, _⟩
  cases h

theorem not_stumbles_refusal (c : ConfigError) : ¬ Stumbles (.error (.config c) : Except Fault α) e := by
  rintro ⟨h, hc⟩
  exact hc c (Except.error.inj h).symm

theorem stumbles_error_iff {e' : Fault} (h : ∀ c, e' ≠ .config c) :
    Stumbles (.error e' : Except Fault α) e ↔ e = e' := by
  constructor
  · rintro ⟨heq, _⟩
    exact (Except.error.inj heq).symm
  · rintro rfl
    exact ⟨rfl, h⟩

/-- A sequence stumbles in its first step, or after it. -/
theorem stumbles_bind_iff (r : Except Fault α) (f : α → Except Fault β) :
    Stumbles (r >>= f) e ↔ Stumbles r e ∨ ∃ a, r = .ok a ∧ Stumbles (f a) e := by
  cases r with
  | ok a => simp [Stumbles, bind, Except.bind]
  | error e' => simp [Stumbles, bind, Except.bind]

/-- A list stumbles at the first item that is not read. -/
theorem stumbles_mapM_iff (f : Json → Except Fault α) (entries : List Json) :
    Stumbles (entries.mapM f) e ↔ ∃ front v back, entries = front ++ v :: back ∧
      (∀ u ∈ front, ∃ a, f u = .ok a) ∧ Stumbles (f v) e := by
  unfold Stumbles
  rw [mapM_eq_error_iff]
  constructor
  · rintro ⟨⟨front, v, back, heq, hfront, hv⟩, hc⟩
    exact ⟨front, v, back, heq, hfront, hv, hc⟩
  · rintro ⟨front, v, back, heq, hfront, hv, hc⟩
    exact ⟨⟨front, v, back, heq, hfront, hv⟩, hc⟩

/-! ### Values -/

/-- Holds of an integer beyond the greatest number. -/
def TooGreat (n : Int) : Prop := ∃ negative, Binary64.ofInt n = .infinite negative

/-- Holds of a value that an engine version is read from. -/
inductive IsVersion : Json → Prop where
  | bool {b : Bool} : IsVersion (.bool b)
  | int {n : Int} : ¬ TooGreat n → IsVersion (.int n)
  | number {x : Binary64} : IsVersion (.number x)
  | string {s : Text} {x : Binary64} : Number.fraction? s = some x → IsVersion (.string s)

/-- A version is read, too great, or refused. -/
theorem readVersion_cases (v : Json) :
    (IsVersion v ∧ ∃ x, readVersion v = .ok x) ∨
    (∃ n, v = .int n ∧ TooGreat n ∧ readVersion v = .error .tooGreat) ∨
    (∃ c, readVersion v = .error (.config c)) := by
  cases v with
  | bool b => exact .inl ⟨.bool, _, rfl⟩
  | number x => exact .inl ⟨.number, x, rfl⟩
  | int n =>
    cases hn : Binary64.ofInt n with
    | infinite negative => exact .inr (.inl ⟨n, rfl, ⟨negative, hn⟩, by simp [readVersion, hn]⟩)
    | nan =>
      refine .inl ⟨.int ?_, .nan, by simp [readVersion, hn]⟩
      rintro ⟨_, h⟩
      simp [hn] at h
    | finite negative m q =>
      refine .inl ⟨.int ?_, .finite negative m q, by simp [readVersion, hn]⟩
      rintro ⟨_, h⟩
      simp [hn] at h
  | string s =>
    cases hs : Number.fraction? s with
    | some x => exact .inl ⟨.string hs, x, by simp [readVersion, hs]⟩
    | none => exact .inr (.inr ⟨_, by simp only [readVersion, hs]; rfl⟩)
  | null => exact .inr (.inr ⟨_, rfl⟩)
  | array elements => exact .inr (.inr ⟨_, rfl⟩)
  | object members => exact .inr (.inr ⟨_, rfl⟩)

theorem readVersion_eq_ok_iff : (∃ x, readVersion v = .ok x) ↔ IsVersion v := by
  constructor
  · rintro ⟨x, hx⟩
    rcases readVersion_cases v with ⟨h, _⟩ | ⟨_, _, _, h⟩ | ⟨_, h⟩
    · exact h
    · simp [hx] at h
    · simp [hx] at h
  · intro h
    rcases readVersion_cases v with ⟨_, hx⟩ | ⟨n, rfl, hgreat, _⟩ | ⟨c, hc⟩
    · exact hx
    · cases h with
      | int hnot => exact absurd hgreat hnot
    · cases h with
      | bool => cases hc
      | number => cases hc
      | string hs => simp [readVersion, hs] at hc
      | @int n hnot =>
        simp only [readVersion] at hc
        split at hc <;> cases hc

theorem stumbles_readVersion_iff :
    Stumbles (readVersion v) e ↔ ∃ n, v = .int n ∧ TooGreat n ∧ e = .tooGreat := by
  rcases readVersion_cases v with ⟨hversion, x, hx⟩ | ⟨n, rfl, hgreat, hx⟩ | ⟨c, hc⟩
  · rw [hx]
    refine ⟨fun h => absurd h (not_stumbles_ok x), ?_⟩
    rintro ⟨n, rfl, hgreat, _⟩
    cases hversion with
    | int hnot => exact absurd hgreat hnot
  · rw [hx]
    constructor
    · rintro ⟨h, _⟩
      exact ⟨n, rfl, hgreat, (Except.error.inj h).symm⟩
    · rintro ⟨_, _, _, rfl⟩
      exact ⟨rfl, by simp⟩
  · rw [hc]
    refine ⟨fun h => absurd h (not_stumbles_refusal c), ?_⟩
    rintro ⟨n, rfl, ⟨negative, hn⟩, _⟩
    simp [readVersion, hn] at hc

/-- Holds of a value that an engine directory is read from. -/
def IsDirectory (v : Json) : Prop := v.isTrue = true → ∃ s, v = .string s

/-- An engine directory is read, or the value is not replaced in. -/
theorem readEngineDir_cases (v : Json) :
    (IsDirectory v ∧ ∃ s, readEngineDir v = .ok s) ∨
    (¬ IsDirectory v ∧ readEngineDir v = .error (.noOperation ⟨v, "replace"⟩)) := by
  unfold IsDirectory
  by_cases htrue : v.isTrue = true
  · cases v with
    | null => cases htrue
    | string s => exact .inl ⟨fun _ => ⟨s, rfl⟩, Path.normalize s, by simp [readEngineDir, htrue]⟩
    | _ => exact .inr ⟨by simp [htrue], by simp [readEngineDir, htrue]⟩
  · exact .inl ⟨fun h => absurd h htrue, [], by simp [readEngineDir, htrue]⟩

theorem readEngineDir_eq_ok_iff : (∃ s, readEngineDir v = .ok s) ↔ IsDirectory v := by
  rcases readEngineDir_cases v with ⟨hdir, hs⟩ | ⟨hdir, he⟩
  · exact iff_of_true hs hdir
  · rw [he]
    exact iff_of_false (by simp) hdir

theorem stumbles_readEngineDir_iff :
    Stumbles (readEngineDir v) e ↔ ¬ IsDirectory v ∧ e = .noOperation ⟨v, "replace"⟩ := by
  rcases readEngineDir_cases v with ⟨hdir, s, hs⟩ | ⟨hdir, he⟩
  · rw [hs]
    exact iff_of_false (not_stumbles_ok s) (fun h => h.1 hdir)
  · rw [he]
    constructor
    · rintro ⟨h, _⟩
      exact ⟨hdir, (Except.error.inj h).symm⟩
    · rintro ⟨_, rfl⟩
      exact ⟨rfl, by simp⟩

/-- Holds of a value that counts and is no integer, and of the fault that it ends with. -/
inductive NotInteger : Json → Fault → Prop where
  | string {s : Text} {e : Number.IntegerError} : s ≠ [] → Number.integer s = .error e →
      NotInteger (.string s) (.integer e)
  | nan : NotInteger (.number .nan) (.noInteger .notANumber)
  | infinite {negative : Bool} :
      NotInteger (.number (.infinite negative)) (.noInteger .unbounded)
  | array {elements : List Json} : elements ≠ [] →
      NotInteger (.array elements) (.wrongType (.integer (.array elements)))
  | object {members : List (Text × Json)} : members ≠ [] →
      NotInteger (.object members) (.wrongType (.integer (.object members)))

/-- The number of the usual target, from a value that may not count. -/
def readNumber (v : Json) : Except Fault Int := readInteger (if v.isTrue then v else .int 1)

/-- The number of the usual target is read, or the value is no integer. -/
theorem readNumber_cases (v : Json) :
    ((∀ e, ¬ NotInteger v e) ∧ ∃ n, readNumber v = .ok n) ∨
    (∃ e, NotInteger v e ∧ (∀ e', NotInteger v e' → e' = e) ∧ readNumber v = .error e ∧
      ∀ c, e ≠ .config c) := by
  unfold readNumber
  by_cases htrue : v.isTrue = true
  · rw [if_pos htrue]
    cases v with
    | null => cases htrue
    | bool b => exact .inl ⟨by rintro _ ⟨⟩, _, rfl⟩
    | int n => exact .inl ⟨by rintro _ ⟨⟩, _, rfl⟩
    | number x =>
      cases x with
      | nan => exact .inr ⟨_, .nan, by rintro _ ⟨⟩; rfl, rfl, by simp⟩
      | infinite negative => exact .inr ⟨_, .infinite, by rintro _ ⟨⟩; rfl, rfl, by simp⟩
      | finite negative m q => exact .inl ⟨by rintro _ ⟨⟩, _, rfl⟩
    | string s =>
      have hs : s ≠ [] := by simpa [Json.isTrue] using htrue
      cases hn : Number.integer s with
      | error e =>
        refine .inr ⟨_, .string hs hn, ?_, by simp [readInteger, hn, Except.mapError], by simp⟩
        rintro _ ⟨_, he⟩
        rw [Except.error.inj (he.symm.trans hn)]
      | ok n =>
        refine .inl ⟨?_, n, by simp [readInteger, hn, Except.mapError]⟩
        rintro _ ⟨_, he⟩
        simp [hn] at he
    | array elements =>
      have hne : elements ≠ [] := by simpa [Json.isTrue] using htrue
      exact .inr ⟨_, .array hne, by rintro _ ⟨⟩; rfl, rfl, by simp⟩
    | object members =>
      have hne : members ≠ [] := by simpa [Json.isTrue] using htrue
      exact .inr ⟨_, .object hne, by rintro _ ⟨⟩; rfl, rfl, by simp⟩
  · rw [if_neg htrue]
    refine .inl ⟨?_, 1, rfl⟩
    -- what is no integer counts
    intro e h
    cases h with
    | string hs _ => simp [Json.isTrue, hs] at htrue
    | nan => simp [Json.isTrue, Binary64.isZero] at htrue
    | infinite => simp [Json.isTrue, Binary64.isZero] at htrue
    | array hne => simp [Json.isTrue, hne] at htrue
    | object hne => simp [Json.isTrue, hne] at htrue

theorem readNumber_eq_ok_iff : (∃ n, readNumber v = .ok n) ↔ ∀ e, ¬ NotInteger v e := by
  rcases readNumber_cases v with ⟨hnot, hn⟩ | ⟨e, he, _, hread, _⟩
  · exact iff_of_true hn hnot
  · rw [hread]
    exact iff_of_false (by simp) (fun h => h e he)

theorem stumbles_readNumber_iff : Stumbles (readNumber v) e ↔ NotInteger v e := by
  rcases readNumber_cases v with ⟨hnot, n, hn⟩ | ⟨e', he', hunique, hread, hc⟩
  · rw [hn]
    exact iff_of_false (not_stumbles_ok n) (hnot e)
  · rw [hread]
    constructor
    · rintro ⟨h, _⟩
      exact Except.error.inj h ▸ he'
    · intro he
      obtain rfl := hunique e he
      exact ⟨rfl, hc⟩

example : NotInteger (.string "x") (.integer (.malformed 10 "x")) := .string (by decide) rfl

/-- Holds of an entry that a target is read from. -/
def IsTarget (v : Json) : Prop :=
  ∃ members name, v = .object members ∧ Json.member? "TargetName" members = some name ∧
    name.isTrue = true

theorem ofJson_eq_ok_iff : (∃ t, Target.ofJson v = .ok t) ↔ IsTarget v := by
  cases v with
  | object members =>
    cases hm : Json.member? "TargetName" members with
    | none => simp [Target.ofJson, IsTarget, hm, Json.isTrue]
    | some name => cases hname : name.isTrue <;> simp [Target.ofJson, IsTarget, hm, hname]
  | _ => simp [Target.ofJson, IsTarget]

theorem stumbles_ofJson_iff : Stumbles (Target.ofJson v) e ↔
    (∀ members, v ≠ .object members) ∧ e = .noOperation ⟨v, "get"⟩ := by
  cases v with
  | object members =>
    simp only [Target.ofJson]
    split
    · exact iff_of_false (not_stumbles_refusal _) (fun h => h.1 members rfl)
    · exact iff_of_false (not_stumbles_ok _) (fun h => h.1 members rfl)
  | _ =>
    refine ⟨fun h => ⟨by simp, (Except.error.inj h.1).symm⟩, ?_⟩
    rintro ⟨_, rfl⟩
    exact ⟨rfl, by simp⟩

/-! ### Members -/

/-- What the version of the engine is read from. -/
def statedVersion (members : List (Text × Json)) : Json :=
  (Json.member? "EngineVer" members).getD (.number (.ofInt 5))

/-- What the directory of the engine is read from. -/
def statedEngineDir (members : List (Text × Json)) : Json :=
  (Json.member? "EngineDir" members).getD .null

/-- What the number of the usual target is read from. -/
def statedNumber (members : List (Text × Json)) : Json :=
  (Json.member? "DefaultTarget" members).getD .null

/-- Holds of members that state the format and offer entries for targets. -/
def Offers (members : List (Text × Json)) (entries : List Json) : Prop :=
  Json.member? "version" members = some (.string formatVersion) ∧
    Json.member? "Targets" members = some (.array entries) ∧ entries ≠ []

/-- Reads the members of a file that offer entries for targets. -/
def ofEntries (members : List (Text × Json)) (entries : List Json) : Except Fault Config := do
  let engineVersion ← readVersion (statedVersion members)
  let engineDir ← readEngineDir (statedEngineDir members)
  let defaultTarget ← readNumber (statedNumber members)
  let targets ← entries.mapM Target.ofJson
  return ⟨engineDir, engineVersion, defaultTarget, targets,
    (Json.member? "_comment" members).getD (.string [])⟩

theorem hasFormat_iff : hasFormat ((Json.member? "version" members).getD .null) = true ↔
    Json.member? "version" members = some (.string formatVersion) := by
  cases Json.member? "version" members with
  | none => simp [hasFormat]
  | some v => cases v <;> simp [hasFormat]

/-- Members offer entries for targets, or they are refused. -/
theorem ofMembers_cases (members : List (Text × Json)) :
    (∃ entries, Offers members entries ∧ ofMembers members = ofEntries members entries) ∨
    ((∀ entries, ¬ Offers members entries) ∧ ∃ c, ofMembers members = .error (.config c)) := by
  unfold ofMembers
  by_cases hformat : hasFormat ((Json.member? "version" members).getD .null) = true
  · have hversion := hasFormat_iff.mp hformat
    simp only [hformat, Bool.not_true, Bool.false_eq_true, if_false]
    split
    · next entry more htargets =>
      exact .inl ⟨entry :: more, ⟨hversion, htargets, List.cons_ne_nil _ _⟩, rfl⟩
    · next hnone =>
      -- targets that are missing, of another type or empty are one refusal
      refine .inr ⟨?_, .noTargets, rfl⟩
      rintro entries ⟨_, htargets, hne⟩
      cases entries with
      | nil => exact hne rfl
      | cons entry more => exact hnone entry more htargets
  · rw [Bool.not_eq_true] at hformat
    simp only [hformat]
    refine .inr ⟨?_, .incompatible _, rfl⟩
    rintro entries ⟨hversion, _⟩
    rw [hasFormat_iff.mpr hversion] at hformat
    cases hformat

theorem Offers.unique {entries' : List Json} (h : Offers members entries)
    (h' : Offers members entries') : entries' = entries :=
  Json.array.inj (Option.some.inj (h'.2.1.symm.trans h.2.1))

theorem ofMembers_of_offers (h : Offers members entries) :
    ofMembers members = ofEntries members entries := by
  rcases ofMembers_cases members with ⟨entries', h', heq⟩ | ⟨hnone, _⟩
  · rw [heq, h.unique h']
  · exact absurd h (hnone entries)

/-- Holds of members with entries for targets that stumble, and of the fault. -/
inductive MembersStumble (members : List (Text × Json)) (entries : List Json) : Fault → Prop where
  | version {n : Int} : statedVersion members = .int n → TooGreat n →
      MembersStumble members entries .tooGreat
  | engineDir : IsVersion (statedVersion members) → ¬ IsDirectory (statedEngineDir members) →
      MembersStumble members entries (.noOperation ⟨statedEngineDir members, "replace"⟩)
  | number {e : Fault} : IsVersion (statedVersion members) →
      IsDirectory (statedEngineDir members) → NotInteger (statedNumber members) e →
      MembersStumble members entries e
  | entry {front : List Json} {v : Json} {back : List Json} :
      IsVersion (statedVersion members) → IsDirectory (statedEngineDir members) →
      (∀ e, ¬ NotInteger (statedNumber members) e) → entries = front ++ v :: back →
      (∀ u ∈ front, IsTarget u) → (∀ members, v ≠ .object members) →
      MembersStumble members entries (.noOperation ⟨v, "get"⟩)

/-- **What members stumble at.** -/
theorem stumbles_ofEntries_iff :
    Stumbles (ofEntries members entries) e ↔ MembersStumble members entries e := by
  unfold ofEntries
  simp only [stumbles_bind_iff, stumbles_readVersion_iff, stumbles_readEngineDir_iff,
    stumbles_readNumber_iff, stumbles_mapM_iff, stumbles_ofJson_iff, ofJson_eq_ok_iff]
  constructor
  · rintro (⟨n, hn, hgreat, rfl⟩ | ⟨x, hx, ⟨hdir, rfl⟩ | ⟨s, hs, hnumber | ⟨k, hk,
      ⟨front, v, back, heq, hfront, hv, rfl⟩ | ⟨ts, _, h⟩⟩⟩⟩)
    · exact .version hn hgreat
    · exact .engineDir (readVersion_eq_ok_iff.mp ⟨x, hx⟩) hdir
    · exact .number (readVersion_eq_ok_iff.mp ⟨x, hx⟩) (readEngineDir_eq_ok_iff.mp ⟨s, hs⟩) hnumber
    · exact .entry (readVersion_eq_ok_iff.mp ⟨x, hx⟩) (readEngineDir_eq_ok_iff.mp ⟨s, hs⟩)
        (readNumber_eq_ok_iff.mp ⟨k, hk⟩) heq hfront hv
    · exact absurd h (not_stumbles_ok _)
  · intro h
    cases h with
    | version hn hgreat => exact .inl ⟨_, hn, hgreat, rfl⟩
    | engineDir hversion hdir =>
      obtain ⟨x, hx⟩ := readVersion_eq_ok_iff.mpr hversion
      exact .inr ⟨x, hx, .inl ⟨hdir, rfl⟩⟩
    | number hversion hdir hnumber =>
      obtain ⟨x, hx⟩ := readVersion_eq_ok_iff.mpr hversion
      obtain ⟨s, hs⟩ := readEngineDir_eq_ok_iff.mpr hdir
      exact .inr ⟨x, hx, .inr ⟨s, hs, .inl hnumber⟩⟩
    | entry hversion hdir hnumber heq hfront hv =>
      obtain ⟨x, hx⟩ := readVersion_eq_ok_iff.mpr hversion
      obtain ⟨s, hs⟩ := readEngineDir_eq_ok_iff.mpr hdir
      obtain ⟨k, hk⟩ := readNumber_eq_ok_iff.mpr hnumber
      exact .inr ⟨x, hx, .inr ⟨s, hs, .inr ⟨k, hk, .inl ⟨_, _, _, heq, hfront, hv, rfl⟩⟩⟩⟩

theorem stumbles_ofMembers_iff : Stumbles (ofMembers members) e ↔
    ∃ entries, Offers members entries ∧ MembersStumble members entries e := by
  rcases ofMembers_cases members with ⟨entries, hoffers, heq⟩ | ⟨hnone, c, hc⟩
  · rw [heq, stumbles_ofEntries_iff]
    constructor
    · intro h
      exact ⟨entries, hoffers, h⟩
    · rintro ⟨entries', hoffers', h⟩
      rwa [hoffers.unique hoffers'] at h
  · rw [hc]
    refine iff_of_false (not_stumbles_refusal c) ?_
    rintro ⟨entries, hoffers, _⟩
    exact hnone entries hoffers

/-! ### Files -/

/-- Holds of bytes that stumble as the content of the file, and of the fault. -/
inductive ContentStumbles (bytes : List UInt8) : Fault → Prop where
  | undecodable {e : Utf8.DecodeError} : Utf8.decode bytes = .error e →
      ContentStumbles bytes (.undecodable e)
  | tooLong {text : Text} {digits : Nat} : Utf8.decode bytes = .ok text →
      Json.read (Text.universal text) = .error (.tooLong digits) →
      ContentStumbles bytes (.document (.tooLong digits))
  | tooDeep {text : Text} {container : Json.Container} : Utf8.decode bytes = .ok text →
      Json.read (Text.universal text) = .error (.tooDeep container) →
      ContentStumbles bytes (.document (.tooDeep container))
  | members {text : Text} {members : List (Text × Json)} {entries : List Json} {e : Fault} :
      Utf8.decode bytes = .ok text → Json.read (Text.universal text) = .ok (.object members) →
      Offers members entries → MembersStumble members entries e → ContentStumbles bytes e

/-- What stumbles in a content that is decoded. -/
theorem contentStumbles_iff {bytes : List UInt8} {text : Text}
    (htext : Utf8.decode bytes = .ok text) : ContentStumbles bytes e ↔
      (∃ digits, Json.read (Text.universal text) = .error (.tooLong digits) ∧
        e = .document (.tooLong digits)) ∨
      (∃ container, Json.read (Text.universal text) = .error (.tooDeep container) ∧
        e = .document (.tooDeep container)) ∨
      ∃ members, Json.read (Text.universal text) = .ok (.object members) ∧
        Stumbles (ofMembers members) e := by
  simp only [stumbles_ofMembers_iff]
  constructor
  · intro h
    cases h with
    | undecodable h => simp [htext] at h
    | tooLong h hread =>
      obtain rfl := Except.ok.inj (htext.symm.trans h)
      exact .inl ⟨_, hread, rfl⟩
    | tooDeep h hread =>
      obtain rfl := Except.ok.inj (htext.symm.trans h)
      exact .inr (.inl ⟨_, hread, rfl⟩)
    | members h hread hoffers hstumble =>
      obtain rfl := Except.ok.inj (htext.symm.trans h)
      exact .inr (.inr ⟨_, hread, _, hoffers, hstumble⟩)
  · rintro (⟨_, hread, rfl⟩ | ⟨_, hread, rfl⟩ | ⟨_, hread, _, hoffers, hstumble⟩)
    · exact .tooLong htext hread
    · exact .tooDeep htext hread
    · exact .members htext hread hoffers hstumble

/-- **What the content of the file stumbles at.** -/
theorem stumbles_ofBytes_iff {path : Text} {bytes : List UInt8} :
    Stumbles (ofBytes path bytes) e ↔ ContentStumbles bytes e := by
  unfold ofBytes
  cases htext : Utf8.decode bytes with
  | error e' =>
    constructor
    · rintro ⟨h, _⟩
      obtain rfl := Except.error.inj h
      exact .undecodable htext
    · intro h
      cases h with
      | undecodable h =>
        obtain rfl := Except.error.inj (htext.symm.trans h)
        exact ⟨rfl, by simp⟩
      | tooLong h => simp [htext] at h
      | tooDeep h => simp [htext] at h
      | members h => simp [htext] at h
  | ok text =>
    rw [contentStumbles_iff htext]
    simp only [Except.mapError, bind, Except.bind]
    cases hread : Json.read (Text.universal text) with
    | ok v =>
      cases v with
      | object members => simp
      | _ => exact iff_of_false (not_stumbles_refusal _) (by simp)
    | error stop =>
      cases stop with
      | malformed => exact iff_of_false (not_stumbles_refusal _) (by simp)
      | tooLong digits => exact (stumbles_error_iff (by simp)).trans (by simp)
      | tooDeep container => exact (stumbles_error_iff (by simp)).trans (by simp)

/-- The configuration in a file of the store. -/
def inStore (s : Store) (path : Text) : Except Fault Config :=
  match s.probe path with
  | .error e => .error (.access (.file e))
  | .ok none => .error (.config (.missing path))
  | .ok (some _) =>
    match s.read path with
    | .ok bytes => ofBytes path bytes
    | .error (.file e) => .error (.config (.unreadable e))
    | .error e => .error (.access e)

theorem run_isIn (project : Path) (w : World) :
    (isIn project).run w = match w.store.probe (pathIn project).toText with
      | .ok found => (.ok found.isSome, w)
      | .error e => (.error (.access (.file e)), w) := by
  unfold isIn
  rw [Task.run_bind_ok (Task.run_store w)]
  cases w.store.probe (pathIn project).toText <;> rfl

/-- What loading does: it reads the store and leaves it. -/
theorem run_load (project : Path) (w : World) :
    (load project).run w = match inStore w.store (pathIn project).toText with
      | .ok c => (.ok c, { w with records := w.records ++ [⟨.debug,
          "Loaded config " ++ (pathIn project).toText ++ " (engine " ++ c.engineDir ++ ")"⟩] })
      | .error e => (.error e, w) := by
  unfold load inStore
  simp only [Task.run_bind, run_isIn]
  cases hprobe : w.store.probe (pathIn project).toText with
  | error e => rfl
  | ok found =>
    cases found with
    | none => rfl
    | some entry =>
      simp only [Option.isSome_some, Bool.not_true, Bool.false_eq_true, if_false, Task.run_bind,
        Task.run_store]
      cases hread : w.store.read (pathIn project).toText with
      | error e => cases e <;> rfl
      | ok bytes =>
        simp only [Task.run_bind, Task.run_pure, Task.run_ofExcept]
        cases ofBytes (pathIn project).toText bytes <;> rfl

/-- Holds of a store in which the file at a path stumbles, and of the fault. -/
inductive FileStumbles (s : Store) (path : Text) : Fault → Prop where
  | nameTooLong {e : FileError} : s.find path = .error (.file e) → e.cause = .nameTooLong →
      FileStumbles s path (.access (.file e))
  | content {bytes : List UInt8} {e : Fault} : s.read path = .ok bytes →
      ContentStumbles bytes e → FileStumbles s path e

/-- How a file is read: its path is too long to look at, its content is read, or it is refused. -/
theorem inStore_cases (s : Store) (path : Text) :
    (∃ fe, s.find path = .error (.file fe) ∧ fe.cause = .nameTooLong ∧
      inStore s path = .error (.access (.file fe))) ∨
    (∃ bytes, s.read path = .ok bytes ∧ inStore s path = ofBytes path bytes) ∨
    ∃ c, inStore s path = .error (.config c) ∧ ∀ e, ¬ FileStumbles s path e := by
  unfold inStore Store.probe
  cases hfind : s.find path with
  | error access =>
    have hnone : ∀ bytes, s.read path ≠ .ok bytes := by
      intro bytes h
      obtain ⟨_, h⟩ := Store.read_eq_ok_iff.mp h
      rw [hfind] at h
      cases h
    cases access with
    | file fe =>
      by_cases hcause : fe.cause = .nameTooLong
      · simp only [hcause, if_true]
        exact .inl ⟨fe, rfl, hcause, rfl⟩
      · simp only [hcause, if_false]
        refine .inr (.inr ⟨_, rfl, ?_⟩)
        intro e h
        cases h with
        | nameTooLong h hc =>
          obtain rfl := AccessError.file.inj (Except.error.inj (hfind.symm.trans h))
          exact hcause hc
        | content h _ => exact hnone _ h
    | _ =>
      refine .inr (.inr ⟨_, rfl, ?_⟩)
      intro e h
      cases h with
      | nameTooLong h _ => cases hfind.symm.trans h
      | content h _ => exact hnone _ h
  | ok entry =>
    cases entry with
    | folder =>
      have hfolder : s.read path = .error (.file ⟨.isFolder, path⟩) := by
        simp [Store.read, hfind, bind, Except.bind]
      simp only [hfolder]
      refine .inr (.inr ⟨_, rfl, ?_⟩)
      intro e h
      cases h with
      | nameTooLong h _ => cases hfind.symm.trans h
      | content h _ => cases hfolder.symm.trans h
    | file bytes program =>
      have hbytes : s.read path = .ok bytes := Store.read_eq_ok_iff.mpr ⟨program, hfind⟩
      simp only [hbytes]
      exact .inr (.inl ⟨bytes, rfl, rfl⟩)

theorem stumbles_inStore_iff {s : Store} {path : Text} :
    Stumbles (inStore s path) e ↔ FileStumbles s path e := by
  rcases inStore_cases s path with ⟨fe, hfind, hcause, hin⟩ | ⟨bytes, hread, hin⟩ | ⟨c, hin, hnot⟩
  · rw [hin, stumbles_error_iff (by simp)]
    constructor
    · intro heq
      rw [heq]
      exact .nameTooLong hfind hcause
    · intro h
      cases h with
      | nameTooLong h _ => exact congrArg Fault.access (Except.error.inj (h.symm.trans hfind))
      | content h _ =>
        obtain ⟨_, h⟩ := Store.read_eq_ok_iff.mp h
        cases hfind.symm.trans h
  · rw [hin, stumbles_ofBytes_iff]
    constructor
    · intro h
      exact .content hread h
    · intro h
      cases h with
      | nameTooLong h _ =>
        obtain ⟨_, hfind⟩ := Store.read_eq_ok_iff.mp hread
        cases hfind.symm.trans h
      | content h hc =>
        obtain rfl := Except.ok.inj (hread.symm.trans h)
        exact hc
  · rw [hin]
    exact iff_of_false (not_stumbles_refusal c) (hnot e)

/-- **Loading ends with a configuration or with a refusal, unless the file stumbles**, and then
    it ends with the fault at which it does. -/
theorem load_stumbles_iff (project : Path) (w : World) (e : Fault) :
    (((load project).run w).1 = .error e ∧ ∀ c, e ≠ .config c) ↔
      FileStumbles w.store (pathIn project).toText e := by
  rw [← stumbles_inStore_iff, run_load]
  cases inStore w.store (pathIn project).toText <;> rfl

end Config

end ClangDb
