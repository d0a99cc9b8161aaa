import ClangDb.Proofs.Config.Reading
import ClangDb.Proofs.FileStore.Paths
import ClangDb.Proofs.Tool.Command
import ClangDb.Tool.Run

/-! # Where running a tool ends with a fault

    That a tool cannot be started, or does not end in time, is a fault of the
    tool.  All others are faults of what the tool was given, or of what it wrote:
    a command that cannot be shown or handed over, a folder whose path is none, a
    limit that cannot be waited for, and output that has no text.

    Key theorems:
    - `handedOver_eq_error_iff`: commands that cannot be handed over,
    - `isLate_eq_error_iff`: limits that cannot be waited for,
    - `run_stumbles_iff`: the faults that are none of a tool,
    - `ofStore_run`: what a tool does depends on the files alone.
-/

namespace ClangDb

namespace Tool

variable {s : Store} {v : Json} {command : List Json} {folder : Option Text}
  {limit : Option Seconds} {ending : Ending} {w : World} {e : Fault}

/-! ### Arguments -/

/-- Holds of an argument that cannot be handed over, and of the fault. -/
inductive ArgumentStumbles : Json → Fault → Prop where
  | noText {v : Json} : ¬ IsText v → ArgumentStumbles v (.wrongType (.path v))
  | noPath {s : Text} {a : AccessError} : Store.NoPath s a →
      ArgumentStumbles (.string s) (.access a)

/-- Holds of an argument that can be handed over. -/
def Fits (v : Json) : Prop := ∃ s, v = .string s ∧ ∀ a, ¬ Store.NoPath s a

theorem argumentStumbles_text {s : Text} :
    ArgumentStumbles (.string s) e ↔ ∃ a, Store.NoPath s a ∧ e = .access a := by
  constructor
  · intro h
    cases h with
    | noText h => exact absurd ⟨s, rfl⟩ h
    | noPath h => exact ⟨_, h, rfl⟩
  · rintro ⟨a, h, rfl⟩
    exact .noPath h

theorem argumentStumbles_noText (h : ¬ IsText v) :
    ArgumentStumbles v e ↔ e = .wrongType (.path v) := by
  constructor
  · intro hstumbles
    cases hstumbles with
    | noText => rfl
    | noPath => exact absurd ⟨_, rfl⟩ h
  · rintro rfl
    exact .noText h

theorem handedOver_noText (h : ¬ IsText v) (as : List Json) :
    handedOver (v :: as) = .error (.wrongType (.path v)) := by
  cases v with
  | string s => exact absurd ⟨s, rfl⟩ h
  | _ => rfl

/-- The arguments are handed over up to the first that cannot be. -/
theorem handedOver_cons_eq_error_iff {as : List Json} : handedOver (v :: as) = .error e ↔
    ArgumentStumbles v e ∨ Fits v ∧ handedOver as = .error e := by
  by_cases htext : IsText v
  · obtain ⟨s, rfl⟩ := htext
    have hfits : Fits (.string s) ↔ ∀ a, ¬ Store.NoPath s a := by simp [Fits]
    rw [argumentStumbles_text, hfits, handedOver]
    rcases Store.noPath_cases s with
      ⟨hnull, hiff⟩ | ⟨hnull, ⟨cause, hencode, hiff⟩ | ⟨bytes, hencode, hnot⟩⟩
    · simp [hnull, hiff, eq_comm]
    · simp [hnull, hencode, hiff, eq_comm]
    · rw [if_neg hnull, hencode]
      cases handedOver as <;> simp [hnot, Except.map]
  · have hfits : ¬ Fits v := fun ⟨s, hs, _⟩ => htext ⟨s, hs⟩
    rw [handedOver_noText htext, argumentStumbles_noText htext]
    simp [hfits, eq_comm]

/-- **A command that cannot be handed over.** -/
theorem handedOver_eq_error_iff : handedOver command = .error e ↔
    FirstOf Fits (fun _ v => ArgumentStumbles v e) command := by
  induction command with
  | nil => exact iff_of_false (by simp [handedOver]) not_firstOf_nil
  | cons v command ih => rw [handedOver_cons_eq_error_iff, firstOf_cons_iff, ih]

/-- What is handed over are the arguments, and each is a path. -/
theorem eq_of_handedOver {arguments : List Text} (h : handedOver command = .ok arguments) :
    command = arguments.map .string ∧ ∀ s ∈ arguments, ∀ a, ¬ Store.NoPath s a := by
  induction command generalizing arguments with
  | nil =>
    obtain rfl := Except.ok.inj h
    simp
  | cons v command ih =>
    by_cases htext : IsText v
    · obtain ⟨s, rfl⟩ := htext
      rw [handedOver] at h
      rcases Store.noPath_cases s with
        ⟨hnull, _⟩ | ⟨hnull, ⟨cause, hencode, _⟩ | ⟨bytes, hencode, hnot⟩⟩
      · rw [if_pos hnull] at h
        cases h
      · rw [if_neg hnull, hencode] at h
        cases h
      · rw [if_neg hnull, hencode] at h
        cases hrest : handedOver command with
        | error e =>
          rw [hrest] at h
          cases h
        | ok rest =>
          rw [hrest] at h
          obtain rfl := Except.ok.inj h
          obtain ⟨rfl, hall⟩ := ih hrest
          exact ⟨rfl, List.forall_mem_cons.mpr ⟨hnot, hall⟩⟩
    · rw [handedOver_noText htext] at h
      cases h

/-- A command that is handed over can be shown. -/
theorem not_unshown_of_handedOver {arguments : List Text} (h : handedOver command = .ok arguments) :
    ¬ Unshown command e := by
  apply not_unshown_of_texts
  intro v hv
  rw [(eq_of_handedOver h).1] at hv
  obtain ⟨s, _, rfl⟩ := List.mem_map.mp hv
  exact ⟨s, rfl⟩

/-- Arguments that all fit are handed over. -/
theorem exists_handedOver (h : ∀ v ∈ command, Fits v) :
    ∃ arguments, handedOver command = .ok arguments := by
  cases hhanded : handedOver command with
  | ok arguments => exact ⟨arguments, rfl⟩
  | error e =>
    obtain ⟨front, v, back, rfl, _, hv⟩ := handedOver_eq_error_iff.mp hhanded
    obtain ⟨s, rfl, hs⟩ := h v (by simp)
    obtain ⟨a, ha, _⟩ := argumentStumbles_text.mp hv
    exact absurd ha (hs a)

/-! ### Limits -/

/-- What is longer than the longest time is a positive number. -/
theorem pos_of_longestWait_lt {negative : Bool} {m : Nat} {q : Int}
    (h : longestWait.lt (.finite negative m q) = true) : negative = false ∧ m ≠ 0 := by
  obtain ⟨m₀, q₀, hlongest⟩ : ∃ m q, longestWait = .finite false m q := ⟨_, _, rfl⟩
  rw [hlongest] at h
  simp only [Binary64.lt, decide_eq_true_eq, Bool.false_eq_true, if_false] at h
  have hlongest : (0 : Int) ≤ Int.ofNat (m₀ * Binary64.twoTo (q₀ - min q₀ q).toNat) :=
    Int.natCast_nonneg _
  cases negative with
  | true =>
    have hlimit : (0 : Int) ≤ Int.ofNat (m * Binary64.twoTo (q - min q₀ q).toNat) :=
      Int.natCast_nonneg _
    simp only [if_true] at h
    omega
  | false =>
    refine ⟨rfl, ?_⟩
    rintro rfl
    rw [if_neg Bool.false_ne_true, Nat.zero_mul] at h
    exact absurd h (Int.not_lt.mpr hlongest)

/-- Holds of a limit that cannot be waited for, and of the fault. -/
inductive LimitStumbles : Seconds → Fault → Prop where
  | tooGreat {n : Int} : Config.TooGreat n → LimitStumbles (.whole n) .tooGreat
  | nan {limit : Seconds} : secondsValue limit = .ok .nan →
      LimitStumbles limit (.noInteger .notANumber)
  | infinite {limit : Seconds} : secondsValue limit = .ok (.infinite false) →
      LimitStumbles limit (.noInteger .unbounded)
  | tooLong {limit : Seconds} {negative : Bool} {m : Nat} {q : Int} :
      secondsValue limit = .ok (.finite negative m q) →
      longestWait.lt (.finite negative m q) = true → LimitStumbles limit .limitTooLong

theorem secondsValue_eq_error_iff {limit : Seconds} : secondsValue limit = .error e ↔
    ∃ n, limit = .whole n ∧ Config.TooGreat n ∧ e = .tooGreat := by
  cases limit with
  | fraction x => simp [secondsValue]
  | whole n =>
    unfold secondsValue Config.TooGreat
    cases hn : Binary64.ofInt n with
    | infinite negative => simp [hn, eq_comm]
    | _ => simp [hn]

/-- What is wrong with a limit that has a value. -/
theorem limitStumbles_of_value {limit : Seconds} {x : Binary64}
    (hx : secondsValue limit = .ok x) : LimitStumbles limit e ↔
      (x = .nan ∧ e = .noInteger .notANumber) ∨ (x = .infinite false ∧ e = .noInteger .unbounded) ∨
      ((∃ negative m q, x = .finite negative m q) ∧ longestWait.lt x = true ∧ e = .limitTooLong) := by
  constructor
  · intro h
    cases h with
    | tooGreat hgreat => cases hx.symm.trans (secondsValue_eq_error_iff.mpr ⟨_, rfl, hgreat, rfl⟩)
    | nan h => exact .inl ⟨Except.ok.inj (hx.symm.trans h), rfl⟩
    | infinite h => exact .inr (.inl ⟨Except.ok.inj (hx.symm.trans h), rfl⟩)
    | tooLong h hlong =>
      obtain rfl := Except.ok.inj (hx.symm.trans h)
      exact .inr (.inr ⟨⟨_, _, _, rfl⟩, hlong, rfl⟩)
  · rintro (⟨rfl, rfl⟩ | ⟨rfl, rfl⟩ | ⟨⟨_, _, _, rfl⟩, hlong, rfl⟩)
    · exact .nan hx
    · exact .infinite hx
    · exact .tooLong hx hlong

/-- **A limit that cannot be waited for**, whatever ends in that time. -/
theorem isLate_eq_error_iff {limit : Seconds} :
    isLate (some limit) ending = .error e ↔ LimitStumbles limit e := by
  unfold isLate
  cases hx : secondsValue limit with
  | error e' =>
    obtain ⟨n, rfl, hgreat, rfl⟩ := secondsValue_eq_error_iff.mp hx
    simp only [hx, bind, Except.bind]
    constructor
    · intro h
      obtain rfl := Except.error.inj h
      exact .tooGreat hgreat
    · intro h
      cases h with
      | tooGreat => rfl
      | nan h => cases hx.symm.trans h
      | infinite h => cases hx.symm.trans h
      | tooLong h _ => cases hx.symm.trans h
  | ok x =>
    rw [limitStumbles_of_value hx]
    simp only [hx, bind, Except.bind]
    cases x with
    | nan =>
      refine error_eq_error_iff.trans ?_
      simp
    | infinite negative =>
      cases negative with
      | true => exact iff_of_false (fun h => by cases h) (by simp)
      | false =>
        refine error_eq_error_iff.trans ?_
        simp
    | finite negative m q =>
      by_cases hnone : ((Binary64.finite negative m q).isZero ||
          (Binary64.finite negative m q).ltNat 0) = true
      · -- no time at all is not too long
        rw [if_pos hnone]
        refine iff_of_false (fun h => by cases h) ?_
        rintro (⟨h, _⟩ | ⟨h, _⟩ | ⟨_, hlong, _⟩)
        · cases h
        · cases h
        · obtain ⟨rfl, hpos⟩ := pos_of_longestWait_lt hlong
          simp [Binary64.isZero, Binary64.ltNat, hpos] at hnone
      · rw [if_neg hnone]
        by_cases hlong : longestWait.lt (.finite negative m q) = true
        · simp only [hlong, if_true]
          refine error_eq_error_iff.trans ?_
          simp
        · cases ending <;> simp [hlong, pure, Except.pure]

/-! ### Running -/

/-- The program that a tool starts in a folder. -/
def started (s : Store) (folder : Option Text) (tool : Text) : Except Fault Program := do
  let inside ← (enter s folder).mapError (startFault tool)
  (program inside tool).mapError (startFault tool)

/-- The fault of a tool that did not end in time. -/
def lateFault (tool : Text) : Option Seconds → Fault
  | some limit => .tool (.timedOut (Path.ofText tool).name limit)
  | none => .noCommand

/-- What a program leaves that ran to its end. -/
def ranOf (p : Program) : Except Fault Ran := do
  let output ← (Utf8.decode p.output).mapError .undecodable
  let errors ← (Utf8.decode p.errors).mapError .undecodable
  return ⟨code p.ending, Text.universal output, Text.universal errors⟩

/-- How running a command ends, in the files as they are. -/
def ends (s : Store) (command : List Json) (folder : Option Text) (limit : Option Seconds) :
    Except Fault Ran := do
  discard (shownCommand command)
  match ← handedOver command with
  | [] => .error .noCommand
  | tool :: _ =>
    let p ← started s folder tool
    if ← isLate limit p.ending then .error (lateFault tool limit) else ranOf p

theorem run_fst : ((run command folder limit).run w).1 = ends w.store command folder limit := by
  unfold run ends
  simp only [Task.run_bind, Task.run_ofExcept]
  cases shownCommand command with
  | error e => rfl
  | ok shown =>
    simp only [Task.run_log]
    cases handedOver command with
    | error e => rfl
    | ok arguments =>
      cases arguments with
      | nil => rfl
      | cons tool more =>
        show _ = (started w.store folder tool >>= _)
        simp only [Task.run_bind, Task.run_pure, Task.run_store, started]
        cases hinside : enter w.store folder with
        | error a => rfl
        | ok inside =>
          show _ = ((program inside tool).mapError (startFault tool) >>= _)
          cases hprogram : program inside tool with
          | error a => simp [hprogram, Except.mapError, bind, Except.bind]
          | ok p =>
            show _ = (isLate limit p.ending >>= _)
            simp only [hprogram, Task.run_bind, Task.run_ofExcept]
            cases isLate limit p.ending with
            | error e => rfl
            | ok late =>
              cases late with
              | true => cases limit <;> rfl
              | false =>
                show _ = ranOf p
                unfold ranOf
                simp only [Bool.false_eq_true, if_false, Task.run_bind, Task.run_setStore]
                cases p.ending <;> cases Utf8.decode p.output <;> cases Utf8.decode p.errors <;> rfl

/-! ### Where it stumbles -/

/-- Holds of a fault that is none of a tool. -/
def NotOfTool (e : Fault) : Prop := ∀ cause, e ≠ .tool cause

/-- What stops a tool from starting is a fault of the tool, unless it refuses a path. -/
theorem startFault_stumbles_iff {α : Type} {r : Except AccessError α} {tool : Text} :
    r.mapError (startFault tool) = .error e ∧ NotOfTool e ↔
      ∃ a, Store.Refuses r a ∧ e = .access a := by
  cases r with
  | ok x =>
    refine iff_of_false (fun h => by cases h.1) ?_
    rintro ⟨a, ha, _⟩
    exact Store.not_refuses_ok x ha
  | error a =>
    constructor
    · rintro ⟨h, htool⟩
      obtain rfl := Except.error.inj h
      cases a with
      | file fe => exact absurd rfl (htool _)
      | _ => exact ⟨_, ⟨rfl, by simp⟩, rfl⟩
    · rintro ⟨a', ⟨h, hfile⟩, rfl⟩
      obtain rfl := Except.error.inj h
      cases a with
      | file fe => exact absurd rfl (hfile fe)
      | _ => exact ⟨rfl, by simp [NotOfTool]⟩

theorem refuses_enter_iff {f : Text} {a : AccessError} :
    Store.Refuses (enter s (some f)) a ↔ Store.NoPath f a := by
  rw [← Store.refuses_locate_iff (s := s)]
  unfold enter
  cases hlocate : s.locate f with
  | error a' =>
    simp only [hlocate]
    exact Store.refuses_error_iff.trans Store.refuses_error_iff.symm
  | ok p =>
    refine iff_of_false ?_ (Store.not_refuses_ok p)
    simp only [hlocate]
    split
    · exact Store.not_refuses_ok _
    · exact Store.not_refuses_file _
    · exact Store.not_refuses_file _

/-- The name of a tool that is a path is not refused. -/
theorem not_refuses_program {tool : Text} {a : AccessError} (h : ∀ a, ¬ Store.NoPath tool a) :
    ¬ Store.Refuses (program s tool) a := by
  unfold program
  split
  · exact Store.not_refuses_file _
  · split
    · exact Store.not_refuses_file _
    · intro hrefuses
      apply h a
      rw [← Store.refuses_find_iff (s := s)]
      cases hfind : s.find tool with
      | error a' =>
        rw [hfind] at hrefuses
        exact Store.refuses_error_iff.mpr (Store.refuses_error_iff.mp hrefuses)
      | ok entry =>
        rw [hfind] at hrefuses
        cases entry with
        | folder => exact absurd hrefuses (Store.not_refuses_file _)
        | file bytes p =>
          cases p with
          | none => exact absurd hrefuses (Store.not_refuses_file _)
          | some p => exact absurd hrefuses (Store.not_refuses_ok _)

theorem started_stumbles_iff {tool : Text} (h : ∀ a, ¬ Store.NoPath tool a) :
    started s folder tool = .error e ∧ NotOfTool e ↔
      ∃ f a, folder = some f ∧ Store.NoPath f a ∧ e = .access a := by
  have hprogram : ∀ inside, ¬ ((program inside tool).mapError (startFault tool) = .error e ∧
      NotOfTool e) := by
    intro inside hstumbles
    obtain ⟨a, ha, _⟩ := startFault_stumbles_iff.mp hstumbles
    exact not_refuses_program h ha
  rw [started, bind_eq_error_iff, or_and_right, startFault_stumbles_iff]
  constructor
  · rintro (⟨a, ha, rfl⟩ | ⟨⟨inside, _, hstumbles⟩, htool⟩)
    · cases folder with
      | none => exact absurd ha (Store.not_refuses_ok s)
      | some f => exact ⟨f, a, rfl, refuses_enter_iff.mp ha, rfl⟩
    · exact absurd ⟨hstumbles, htool⟩ (hprogram inside)
  · rintro ⟨f, a, rfl, ha, rfl⟩
    exact .inl ⟨a, refuses_enter_iff.mpr ha, rfl⟩

/-- Holds of a program that a command starts in a folder. -/
def Starts (s : Store) (command : List Json) (folder : Option Text) (p : Program) : Prop :=
  ∃ tool more, handedOver command = .ok (tool :: more) ∧ started s folder tool = .ok p

/-- Holds of a command that ends with a fault that is none of a tool, and of the fault. -/
inductive RunStumbles (s : Store) (command : List Json) (folder : Option Text)
    (limit : Option Seconds) : Fault → Prop where
  | unshown {e : Fault} : Unshown command e → RunStumbles s command folder limit e
  | argument {e : Fault} : (∀ e', ¬ Unshown command e') →
      FirstOf Fits (fun _ v => ArgumentStumbles v e) command →
      RunStumbles s command folder limit e
  | empty : command = [] → RunStumbles s command folder limit .noCommand
  | folder {f : Text} {a : AccessError} : command ≠ [] → (∀ v ∈ command, Fits v) →
      folder = some f → Store.NoPath f a → RunStumbles s command folder limit (.access a)
  | limit {p : Program} {l : Seconds} {e : Fault} : Starts s command folder p → limit = some l →
      LimitStumbles l e → RunStumbles s command folder limit e
  | output {p : Program} {flaw : Utf8.DecodeError} : Starts s command folder p →
      isLate limit p.ending = .ok false → Utf8.decode p.output = .error flaw →
      RunStumbles s command folder limit (.undecodable flaw)
  | errors {p : Program} {output : Text} {flaw : Utf8.DecodeError} : Starts s command folder p →
      isLate limit p.ending = .ok false → Utf8.decode p.output = .ok output →
      Utf8.decode p.errors = .error flaw → RunStumbles s command folder limit (.undecodable flaw)

theorem ranOf_eq_error_iff {p : Program} : ranOf p = .error e ↔
    (∃ flaw, Utf8.decode p.output = .error flaw ∧ e = .undecodable flaw) ∨
    (∃ output flaw, Utf8.decode p.output = .ok output ∧ Utf8.decode p.errors = .error flaw ∧
      e = .undecodable flaw) := by
  unfold ranOf
  cases Utf8.decode p.output with
  | error flaw => simp [Except.mapError, bind, Except.bind, eq_comm]
  | ok output =>
    cases Utf8.decode p.errors with
    | error flaw => simp [Except.mapError, bind, Except.bind, eq_comm]
    | ok errors => simp [Except.mapError, bind, Except.bind, pure, Except.pure]

/-- No fault that is listed is one of a tool. -/
theorem RunStumbles.notOfTool (h : RunStumbles s command folder limit e) : NotOfTool e := by
  intro cause he
  subst he
  cases h with
  | unshown h =>
    cases h with
    | search h =>
      obtain ⟨_, _, _, _, _, _, he⟩ := h
      cases he
    | join _ h =>
      obtain ⟨_, _, _, _, _, _, he⟩ := h
      cases he
  | argument _ h =>
    obtain ⟨_, _, _, _, _, h⟩ := h
    cases h
  | limit _ _ h => cases h

theorem exists_shown (h : ∀ e, ¬ Unshown command e) :
    ∃ shown, shownCommand command = .ok shown := by
  cases hshown : shownCommand command with
  | ok shown => exact ⟨shown, rfl⟩
  | error e => exact absurd (shownCommand_eq_error_iff.mp hshown) (h e)

/-- How a command that is handed over ends. -/
theorem ends_of_handedOver {tool : Text} {more : List Text}
    (h : handedOver command = .ok (tool :: more)) : ends s command folder limit =
      (started s folder tool >>= fun p => isLate limit p.ending >>= fun late =>
        if late then .error (lateFault tool limit) else ranOf p) := by
  obtain ⟨shown, hshown⟩ := exists_shown fun e => not_unshown_of_handedOver (e := e) h
  unfold ends
  rw [hshown, h]
  rfl

/-- How a command that cannot be shown ends. -/
theorem ends_of_unshown (h : shownCommand command = .error e) :
    ends s command folder limit = .error e := by
  unfold ends
  rw [h]
  rfl

/-- How a command that can be shown ends. -/
theorem ends_of_shown {shown : Text} (h : shownCommand command = .ok shown) :
    ends s command folder limit = (handedOver command >>= fun arguments =>
      match arguments with
      | [] => .error .noCommand
      | tool :: _ => started s folder tool >>= fun p => isLate limit p.ending >>= fun late =>
        if late then .error (lateFault tool limit) else ranOf p) := by
  unfold ends
  rw [h]
  rfl

theorem notOfTool_of_ranOf {p : Program} (h : ranOf p = .error e) : NotOfTool e := by
  intro cause he
  rcases ranOf_eq_error_iff.mp h with ⟨_, _, rfl⟩ | ⟨_, _, _, _, rfl⟩ <;> cases he

/-- A program that is waited for stumbles at the limit, or at what it wrote. -/
theorem waited_stumbles_iff {tool : Text} {p : Program} :
    (isLate limit p.ending >>= fun late =>
      if late then .error (lateFault tool limit) else ranOf p) = .error e ∧ NotOfTool e ↔
    (∃ l, limit = some l ∧ LimitStumbles l e) ∨
    isLate limit p.ending = .ok false ∧ ranOf p = .error e := by
  have hran : ranOf p = .error e ∧ NotOfTool e ↔ ranOf p = .error e :=
    and_iff_left_of_imp notOfTool_of_ranOf
  cases limit with
  | none => simpa [isLate, bind, Except.bind] using fun h => notOfTool_of_ranOf h
  | some l =>
    have hlimit : (∃ l', some l = some l' ∧ LimitStumbles l' e) ↔
        isLate (some l) p.ending = .error e := by
      rw [isLate_eq_error_iff]
      simp
    rw [hlimit]
    cases hlate : isLate (some l) p.ending with
    | error e' =>
      have htool : NotOfTool e' := by
        intro cause he
        subst he
        cases isLate_eq_error_iff.mp hlate
      constructor
      · rintro ⟨h, _⟩
        exact .inl (congrArg Except.error (Except.error.inj h))
      · rintro (h | ⟨h, _⟩)
        · obtain rfl := Except.error.inj h
          exact ⟨rfl, htool⟩
        · cases h
    | ok late =>
      cases late with
      | true =>
        refine iff_of_false ?_ (by simp)
        rintro ⟨h, htool⟩
        exact htool _ (Except.error.inj h).symm
      | false => simpa [bind, Except.bind] using hran

/-- A command that starts a program stumbles at its limit, or at what the program wrote. -/
theorem Starts.stumbles_iff {p : Program} (h : Starts s command folder p) :
    ends s command folder limit = .error e ∧ NotOfTool e ↔
      (∃ l, limit = some l ∧ LimitStumbles l e) ∨
      isLate limit p.ending = .ok false ∧ ranOf p = .error e := by
  obtain ⟨tool, more, hhanded, hstarted⟩ := h
  rw [ends_of_handedOver hhanded, hstarted]
  exact waited_stumbles_iff

/-- A command that is handed over stumbles at the folder, or it starts a program. -/
theorem folder_or_starts {tool : Text} {more : List Text}
    (hhanded : handedOver command = .ok (tool :: more))
    (h : ends s command folder limit = .error e) (htool : NotOfTool e) :
    (∃ f a, folder = some f ∧ Store.NoPath f a ∧ e = .access a) ∨
      ∃ p, Starts s command folder p := by
  obtain ⟨_, hpaths⟩ := eq_of_handedOver hhanded
  rw [ends_of_handedOver hhanded] at h
  rcases bind_eq_error_iff.mp h with h | ⟨p, hstarted, _⟩
  · exact .inl ((started_stumbles_iff (hpaths tool List.mem_cons_self)).mp ⟨h, htool⟩)
  · exact .inr ⟨p, tool, more, hhanded, hstarted⟩

/-- A fault that is none of a tool is one of those listed. -/
theorem runStumbles_of_ends (h : ends s command folder limit = .error e) (htool : NotOfTool e) :
    RunStumbles s command folder limit e := by
  cases hshown : shownCommand command with
  | error e' =>
    obtain rfl := Except.error.inj ((ends_of_unshown hshown).symm.trans h)
    exact .unshown (shownCommand_eq_error_iff.mp hshown)
  | ok shown =>
    have hunshown : ∀ e', ¬ Unshown command e' := by
      intro e' hnot
      cases hshown.symm.trans (shownCommand_eq_error_iff.mpr hnot)
    cases hhanded : handedOver command with
    | error e' =>
      rw [ends_of_shown hshown, hhanded] at h
      obtain rfl := Except.error.inj h
      exact .argument hunshown (handedOver_eq_error_iff.mp hhanded)
    | ok arguments =>
      obtain ⟨hcommand, hpaths⟩ := eq_of_handedOver hhanded
      cases arguments with
      | nil =>
        rw [ends_of_shown hshown, hhanded] at h
        obtain rfl := Except.error.inj h
        exact .empty hcommand
      | cons tool more =>
        rcases folder_or_starts hhanded h htool with ⟨f, a, hfolder, ha, rfl⟩ | ⟨p, hstarts⟩
        · refine .folder (by simp [hcommand]) ?_ hfolder ha
          intro v hv
          rw [hcommand] at hv
          obtain ⟨s, hs, rfl⟩ := List.mem_map.mp hv
          exact ⟨s, rfl, hpaths s hs⟩
        · rcases hstarts.stumbles_iff.mp ⟨h, htool⟩ with ⟨l, hl, hlimit⟩ | ⟨hlate, hran⟩
          · exact .limit hstarts hl hlimit
          · rcases ranOf_eq_error_iff.mp hran with
              ⟨flaw, hflaw, rfl⟩ | ⟨output, flaw, houtput, hflaw, rfl⟩
            · exact .output hstarts hlate hflaw
            · exact .errors hstarts hlate houtput hflaw

/-- A fault that is listed is what running the command ends with. -/
theorem RunStumbles.ends_eq (h : RunStumbles s command folder limit e) :
    ends s command folder limit = .error e := by
  cases h with
  | unshown h => exact ends_of_unshown (shownCommand_eq_error_iff.mpr h)
  | argument hunshown h =>
    obtain ⟨shown, hshown⟩ := exists_shown hunshown
    rw [ends_of_shown hshown, handedOver_eq_error_iff.mpr h]
    rfl
  | empty h =>
    subst h
    rfl
  | folder hne hfits hfolder ha =>
    obtain ⟨arguments, hhanded⟩ := exists_handedOver hfits
    obtain ⟨hcommand, hpaths⟩ := eq_of_handedOver hhanded
    cases arguments with
    | nil => exact absurd hcommand hne
    | cons tool more =>
      have hstarted := (started_stumbles_iff (s := s) (hpaths tool List.mem_cons_self)).mpr
        ⟨_, _, hfolder, ha, rfl⟩
      rw [ends_of_handedOver hhanded, hstarted.1]
      rfl
  | limit hstarts hl hlimit => exact (hstarts.stumbles_iff.mpr (.inl ⟨_, hl, hlimit⟩)).1
  | output hstarts hlate hflaw =>
    have hran := ranOf_eq_error_iff.mpr (.inl ⟨_, hflaw, rfl⟩)
    exact (hstarts.stumbles_iff.mpr (.inr ⟨hlate, hran⟩)).1
  | errors hstarts hlate houtput hflaw =>
    have hran := ranOf_eq_error_iff.mpr (.inr ⟨_, _, houtput, hflaw, rfl⟩)
    exact (hstarts.stumbles_iff.mpr (.inr ⟨hlate, hran⟩)).1

/-- Where running a command ends with a fault that is none of a tool. -/
theorem ends_stumbles_iff : ends s command folder limit = .error e ∧ NotOfTool e ↔
    RunStumbles s command folder limit e := by
  constructor
  · rintro ⟨h, htool⟩
    exact runStumbles_of_ends h htool
  · intro h
    exact ⟨h.ends_eq, h.notOfTool⟩

/-- A command that cannot be shown stumbles there. -/
theorem runStumbles_of_unshown {e' : Fault} (h : shownCommand command = .error e') :
    RunStumbles s command folder limit e ↔ e = e' := by
  have hunshown : RunStumbles s command folder limit e' :=
    .unshown (shownCommand_eq_error_iff.mp h)
  rw [← ends_stumbles_iff, ends_of_unshown h, error_eq_error_iff]
  exact and_iff_left_of_imp fun he => he ▸ hunshown.notOfTool

/-- **Where running a tool ends with a fault that is none of the tool.** -/
theorem run_stumbles_iff : ((run command folder limit).run w).1 = .error e ∧ NotOfTool e ↔
    RunStumbles w.store command folder limit e := by
  rw [run_fst, ends_stumbles_iff]

theorem ofStore_ranOf {p : Program} {name : Text} : Task.OfStore (do
    let output ← Task.ofExcept ((Utf8.decode p.output).mapError .undecodable)
    let errors ← Task.ofExcept ((Utf8.decode p.errors).mapError .undecodable)
    let ran : Ran := ⟨code p.ending, Text.universal output, Text.universal errors⟩
    Task.report (ran.records name)
    return ran) := by
  refine .bind (Task.ofStore_ofExcept _) fun output => ?_
  refine .bind (Task.ofStore_ofExcept _) fun errors => ?_
  exact .bind (Task.ofStore_report _) fun _ => Task.ofStore_pure _

/-- **What a tool does depends on the files alone**, so a tool that is run again on the same files
    does the same. -/
theorem ofStore_run (command : List Json) (folder : Option Text) (limit : Option Seconds) :
    Task.OfStore (run command folder limit) := by
  unfold run
  refine .bind (Task.ofStore_ofExcept _) fun shown => ?_
  refine .bind (Task.ofStore_report _) fun _ => ?_
  refine .bind (Task.ofStore_ofExcept _) fun arguments => ?_
  cases arguments with
  | nil => exact fun _ _ h => ⟨rfl, h⟩
  | cons tool more =>
    refine .bind (Task.ofStore_pure tool) fun tool => ?_
    refine .bind Task.ofStore_store fun s => ?_
    split
    · exact Task.ofStore_fail _
    · split
      · exact Task.ofStore_fail _
      · refine .bind (Task.ofStore_ofExcept _) fun late => ?_
        cases late with
        | true => cases limit <;> exact Task.ofStore_fail _
        | false =>
          refine .bind (Task.ofStore_setStore _) fun _ => ?_
          split
          · exact ofStore_ranOf
          · exact .bind (Task.ofStore_modify fun _ => rfl) fun _ => ofStore_ranOf

end Tool

end ClangDb
