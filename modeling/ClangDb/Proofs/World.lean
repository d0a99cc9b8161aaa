import ClangDb.World

/-! # What an operation does in a world

    `run` takes an operation and a world to a result and the world that is left.
    The lemmas say what the operations of `Task` and their sequence do, so that
    an operation is followed step by step without opening the monad.
-/

namespace ClangDb

/-- What an outcome is if there is one. -/
theorem eq_ok_of_toOption {ε α : Type} {x : Except ε α} {a : α} (h : x.toOption = some a) :
    x = .ok a := by
  cases x with
  | error e => cases h
  | ok b => rw [Option.some.inj h]

/-- A sequence of results is a fault at its first step, or after it. -/
theorem bind_eq_error_iff {ε α β : Type} {r : Except ε α} {f : α → Except ε β} {e : ε} :
    (r >>= f) = .error e ↔ r = .error e ∨ ∃ a, r = .ok a ∧ f a = .error e := by
  cases r with
  | ok a => simp [bind, Except.bind]
  | error e' => simp [bind, Except.bind]

/-- A sequence of results has one if its steps have. -/
theorem bind_eq_ok_iff {ε α β : Type} {r : Except ε α} {f : α → Except ε β} {b : β} :
    (r >>= f) = .ok b ↔ ∃ a, r = .ok a ∧ f a = .ok b := by
  cases r with
  | ok a => simp [bind, Except.bind]
  | error e => simp [bind, Except.bind]

theorem error_eq_error_iff {ε α : Type} {e e' : ε} :
    (.error e : Except ε α) = .error e' ↔ e' = e := by
  constructor
  · intro h
    exact (Except.error.inj h).symm
  · rintro rfl
    rfl

/-- A fault of which something holds is passed on. -/
theorem error_passed_iff {ε α β : Type} {P : ε → Prop} {e e' : ε} (h : P e) :
    (.error e : Except ε α) = .error e' ↔ (.error e : Except ε β) = .error e' ∧ P e' := by
  rw [error_eq_error_iff, error_eq_error_iff]
  constructor
  · rintro rfl
    exact ⟨rfl, h⟩
  · rintro ⟨rfl, _⟩
    rfl

/-- Holds of a list with an item of which something holds at its position, and before which
    something holds of all items. -/
def FirstOf {α : Type} (before : α → Prop) (found : Nat → α → Prop) (as : List α) : Prop :=
  ∃ front a back, as = front ++ a :: back ∧ (∀ b ∈ front, before b) ∧ found front.length a

section FirstOf

variable {α : Type} {before : α → Prop} {found : Nat → α → Prop} {a : α} {as : List α}

theorem not_firstOf_nil : ¬ FirstOf before found [] := by
  rintro ⟨front, a, back, h, _⟩
  simp at h

theorem firstOf_cons_iff : FirstOf before found (a :: as) ↔
    found 0 a ∨ before a ∧ FirstOf before (fun n => found (n + 1)) as := by
  constructor
  · rintro ⟨front, b, back, h, hfront, hfound⟩
    cases front with
    | nil =>
      obtain ⟨rfl, rfl⟩ := List.cons.inj h
      exact .inl hfound
    | cons first front =>
      obtain ⟨rfl, rfl⟩ := List.cons.inj h
      obtain ⟨hfirst, hrest⟩ := List.forall_mem_cons.mp hfront
      exact .inr ⟨hfirst, front, b, back, rfl, hrest, hfound⟩
  · rintro (h | ⟨hbefore, front, b, back, rfl, hfront, hfound⟩)
    · exact ⟨[], a, as, rfl, by simp, h⟩
    · exact ⟨a :: front, b, back, rfl, List.forall_mem_cons.mpr ⟨hbefore, hfront⟩, hfound⟩

/-- A list of results is a fault at the first item that has none. -/
theorem mapM_eq_error_iff {ε β : Type} {f : α → Except ε β} {e : ε} {as : List α} :
    as.mapM f = .error e ↔
      FirstOf (fun a => ∃ b, f a = .ok b) (fun _ a => f a = .error e) as := by
  induction as with
  | nil => exact iff_of_false (by simp [pure, Except.pure]) not_firstOf_nil
  | cons a as ih =>
    rw [List.mapM_cons, bind_eq_error_iff, firstOf_cons_iff, ← ih]
    refine or_congr Iff.rfl ?_
    constructor
    · rintro ⟨b, hb, h⟩
      rcases bind_eq_error_iff.mp h with h | ⟨_, _, h⟩
      · exact ⟨⟨b, hb⟩, h⟩
      · cases h
    · rintro ⟨⟨b, hb⟩, h⟩
      exact ⟨b, hb, bind_eq_error_iff.mpr (.inl h)⟩

/-- A list of results is there only if every item has one. -/
theorem exists_ok_of_mapM {ε β : Type} {f : α → Except ε β} {bs : List β}
    (h : as.mapM f = .ok bs) : ∀ a ∈ as, ∃ b, f a = .ok b := by
  induction as generalizing bs with
  | nil => simp
  | cons a as ih =>
    rw [List.mapM_cons] at h
    cases hf : f a with
    | error e =>
      rw [hf] at h
      cases h
    | ok b =>
      rw [hf] at h
      cases hrest : as.mapM f with
      | error e =>
        rw [hrest] at h
        cases h
      | ok bs' => exact List.forall_mem_cons.mpr ⟨⟨b, hf⟩, ih hrest⟩

end FirstOf

namespace Task

variable {α β : Type} {w w' : World} {e : Fault}

theorem run_bind (t : Task α) (f : α → Task β) (w : World) :
    (t >>= f).run w = match t.run w with
      | (.ok a, w') => (f a).run w'
      | (.error e, w') => (.error e, w') := by
  have hbind : (t >>= f).run w = (ExceptT.bindCont f (t.run w).1).run (t.run w).2 := rfl
  rw [hbind]
  rcases t.run w with ⟨_ | _, _⟩ <;> rfl

/-- A sequence goes on after a result. -/
theorem run_bind_ok {t : Task α} {a : α} (h : t.run w = (.ok a, w')) (f : α → Task β) :
    (t >>= f).run w = (f a).run w' := by
  rw [run_bind, h]

/-- A sequence ends at a fault. -/
theorem run_bind_error {t : Task α} (h : t.run w = (.error e, w')) (f : α → Task β) :
    (t >>= f).run w = (.error e, w') := by
  rw [run_bind, h]

@[simp] theorem run_pure (a : α) (w : World) : (pure a : Task α).run w = (.ok a, w) := rfl

@[simp] theorem run_fail (e : Fault) (w : World) : (fail e : Task α).run w = (.error e, w) := rfl

@[simp] theorem run_ofExcept (r : Except Fault α) (w : World) : (ofExcept r).run w = (r, w) := rfl

@[simp] theorem run_store (w : World) : store.run w = (.ok w.store, w) := rfl

@[simp] theorem run_setStore (s : Store) (w : World) :
    (setStore s).run w = (.ok (), { w with store := s }) := rfl

@[simp] theorem run_report (records : List Record) (w : World) :
    (report records).run w = (.ok (), { w with records := w.records ++ records }) := rfl

@[simp] theorem run_log (level : Level) (message : Text) (w : World) :
    (log level message).run w =
      (.ok (), { w with records := w.records ++ [⟨level, message⟩] }) := rfl

@[simp] theorem run_outcome (t : Task α) (w : World) :
    t.outcome.run w = (.ok (t.run w).1, (t.run w).2) := rfl

/-- A sequence that came to a result came to one at each step. -/
theorem bind_ok {t : Task α} {f : α → Task β} {b : β} (h : (t >>= f).run w = (.ok b, w')) :
    ∃ a w₁, t.run w = (.ok a, w₁) ∧ (f a).run w₁ = (.ok b, w') := by
  rw [run_bind] at h
  cases ht : t.run w with
  | mk r w₁ =>
    rw [ht] at h
    cases r with
    | ok a => exact ⟨a, w₁, rfl, h⟩
    | error e => cases h

/-- A sequence ends with a fault at its first step, or after it. -/
theorem bind_error_iff {t : Task α} {f : α → Task β} :
    ((t >>= f).run w).1 = .error e ↔ (t.run w).1 = .error e ∨
      ∃ a w₁, t.run w = (.ok a, w₁) ∧ ((f a).run w₁).1 = .error e := by
  rw [run_bind]
  rcases t.run w with ⟨e' | a, w₁⟩
  · constructor
    · intro h
      exact .inl (congrArg Except.error (Except.error.inj h))
    · rintro (h | ⟨_, _, h, _⟩)
      · exact congrArg Except.error (Except.error.inj h)
      · cases (Prod.mk.inj h).1
  · constructor
    · intro h
      exact .inr ⟨a, w₁, rfl, h⟩
    · rintro (h | ⟨_, _, h, he⟩)
      · cases h
      · obtain ⟨ha, rfl⟩ := Prod.mk.inj h
        obtain rfl := Except.ok.inj ha
        exact he

/-- A result that was asked for is there, and nothing has happened. -/
theorem ofExcept_bind_ok {r : Except Fault α} {f : α → Task β} {b : β}
    (h : (ofExcept r >>= f).run w = (.ok b, w')) : ∃ a, r = .ok a ∧ (f a).run w = (.ok b, w') := by
  obtain ⟨a, w₁, hr, h⟩ := bind_ok h
  obtain ⟨rfl, rfl⟩ := Prod.mk.inj hr
  exact ⟨a, rfl, h⟩

/-- What is asked for is a fault, or is there and nothing has happened. -/
theorem ofExcept_bind_error_iff {r : Except Fault α} {f : α → Task β} :
    ((ofExcept r >>= f).run w).1 = .error e ↔
      r = .error e ∨ ∃ a, r = .ok a ∧ ((f a).run w).1 = .error e := by
  rw [bind_error_iff, run_ofExcept]
  refine or_congr Iff.rfl ?_
  constructor
  · rintro ⟨a, w₁, h, hf⟩
    obtain ⟨rfl, rfl⟩ := Prod.mk.inj h
    exact ⟨a, rfl, hf⟩
  · rintro ⟨a, rfl, hf⟩
    exact ⟨a, w, rfl, hf⟩

/-! ### The files alone -/

/-- Holds of an operation whose outcome, and what it does to the files, depend on the files alone,
    and not on what was recorded or called before. -/
def OfStore (t : Task α) : Prop := ∀ w₁ w₂ : World, w₁.store = w₂.store →
  (t.run w₁).1 = (t.run w₂).1 ∧ (t.run w₁).2.store = (t.run w₂).2.store

theorem OfStore.bind {t : Task α} {f : α → Task β} (ht : OfStore t) (hf : ∀ a, OfStore (f a)) :
    OfStore (t >>= f) := by
  intro w₁ w₂ h
  have hstep := ht w₁ w₂ h
  rw [run_bind, run_bind]
  generalize t.run w₁ = first at hstep ⊢
  generalize t.run w₂ = second at hstep ⊢
  obtain ⟨r₁, left₁⟩ := first
  obtain ⟨r₂, left₂⟩ := second
  obtain ⟨rfl, hstore⟩ := hstep
  cases r₁ with
  | ok a => exact hf a left₁ left₂ hstore
  | error e => exact ⟨rfl, hstore⟩

theorem ofStore_ofExcept (r : Except Fault α) : OfStore (ofExcept r) := fun _ _ h => ⟨rfl, h⟩

theorem ofStore_pure (a : α) : OfStore (pure a) := fun _ _ h => ⟨rfl, h⟩

theorem ofStore_fail (e : Fault) : OfStore (fail e : Task α) := fun _ _ h => ⟨rfl, h⟩

theorem ofStore_store : OfStore store := fun _ _ h => ⟨congrArg Except.ok h, h⟩

theorem ofStore_setStore (s : Store) : OfStore (setStore s) := fun _ _ _ => ⟨rfl, rfl⟩

theorem ofStore_report (records : List Record) : OfStore (report records) := fun _ _ h => ⟨rfl, h⟩

theorem ofStore_modify {f : World → World} (hf : ∀ w, (f w).store = w.store) :
    OfStore (modify f) := by
  intro w₁ w₂ h
  refine ⟨rfl, ?_⟩
  show (f w₁).store = (f w₂).store
  rw [hf, hf, h]

end Task

end ClangDb
