import ClangDb.Json.Reader

/-! # The text of JSON strings

    `Spelled` says what may stand between the quotes of a string, unit by unit.
    The reader looks up to twelve code points ahead, for the second half of a
    surrogate pair, but never past the closing quote of a string that it
    accepts: so whether a string is read, and as what, depends on the text
    between its quotes alone.

    Key theorems:
    - `spelled_of_readString`: what is read is spelled,
    - `Spelled.readString`: what is spelled is read, whatever follows,
    - `writes_iff_decodes`, `Decodes.append`: what it is read as, unit by unit,
    - `Spelled.take_escapedQuote`: where a spelled text may be cut.
-/

namespace ClangDb

namespace Json

/-- Holds of the text between the quotes of a string. -/
inductive Spelled : Text → Prop where
  | nil : Spelled []
  | plain {c : CodePoint} {r : Text} : c ≠ .char '"' → c ≠ .char '\\' → 0x20 ≤ c.toNat →
      Spelled r → Spelled (c :: r)
  | simple {d : CodePoint} {r : Text} : (simpleEscape? d).isSome → Spelled r →
      Spelled (.char '\\' :: d :: r)
  | hex {a b c d : CodePoint} {r : Text} : (hex? [a, b, c, d]).isSome → Spelled r →
      Spelled (.char '\\' :: .char 'u' :: a :: b :: c :: d :: r)

theorem Spelled.append {a b : Text} (ha : Spelled a) (hb : Spelled b) : Spelled (a ++ b) := by
  induction ha with
  | nil => exact hb
  | plain h₁ h₂ h₃ _ ih => exact .plain h₁ h₂ h₃ ih
  | simple h _ ih => exact .simple h ih
  | hex h _ ih => exact .hex h ih

/-! ### Escapes -/

theorem simpleEscape?_letter : simpleEscape? (.char 'u') = none := by decide

/-- A control is no escape. -/
theorem le_of_simpleEscape? {d : CodePoint} (h : (simpleEscape? d).isSome) : 0x20 ≤ d.toNat := by
  unfold simpleEscape? at h
  split at h
  · next hd => rcases hd with rfl | rfl | rfl <;> decide
  · split at h
    · next hd => subst hd; decide
    · split at h
      · next hd => subst hd; decide
      · split at h
        · next hd => subst hd; decide
        · split at h
          · next hd => subst hd; decide
          · split at h
            · next hd => subst hd; decide
            · cases h

/-- A fold that can fail has not failed at any item. -/
theorem isSome_of_foldl {α : Type} {f : Option Nat → α → Option Nat} {p : α → Prop}
    (hnone : ∀ c, f none c = none) (hf : ∀ v c, (f (some v) c).isSome → p c) {s : List α}
    {start : Option Nat} (h : (s.foldl f start).isSome) : start.isSome ∧ ∀ c ∈ s, p c := by
  induction s generalizing start with
  | nil => exact ⟨h, by simp⟩
  | cons c r ih =>
    obtain ⟨hstep, hr⟩ := ih h
    cases start with
    | none =>
      rw [hnone] at hstep
      cases hstep
    | some v =>
      refine ⟨rfl, fun d hd => ?_⟩
      rcases List.mem_cons.mp hd with rfl | hd
      · exact hf v d hstep
      · exact hr d hd

theorem isSome_digitValue?_of_natOf? {base : Nat} {s : Text}
    (h : (Number.natOf? base s).isSome) : ∀ c ∈ s, (Number.digitValue? c).isSome := by
  refine (isSome_of_foldl (fun _ => rfl) (fun v c hc => ?_) h).2
  cases hd : Number.digitValue? c with
  | some _ => rfl
  | none => simp [hd] at hc

/-- A hexadecimal digit is no quote, no backslash and no control. -/
theorem bounds_of_hex? {digits : Text} (h : (hex? digits).isSome) :
    ∀ c ∈ digits, c ≠ .char '"' ∧ c ≠ .char '\\' ∧ 0x20 ≤ c.toNat := by
  intro c hc
  have hvalue := isSome_digitValue?_of_natOf? h c hc
  refine ⟨?_, ?_, ?_⟩
  · rintro rfl
    exact absurd hvalue (by decide)
  · rintro rfl
    exact absurd hvalue (by decide)
  · apply Nat.le_of_not_lt
    intro hlow
    have h₁ : ¬ 0x30 ≤ c.toNat := by omega
    have h₂ : ¬ 0x61 ≤ c.toNat := by omega
    have h₃ : ¬ 0x41 ≤ c.toNat := by omega
    simp [Number.digitValue?, h₁, h₂, h₃] at hvalue

/-- A spelled text holds no control. -/
theorem Spelled.le_toNat {body : Text} (h : Spelled body) : ∀ c ∈ body, 0x20 ≤ c.toNat := by
  induction h with
  | nil => simp
  | plain _ _ hc _ ih =>
    intro c hm
    rcases List.mem_cons.mp hm with rfl | hm
    · exact hc
    · exact ih c hm
  | simple hd _ ih =>
    intro c hm
    rcases List.mem_cons.mp hm with rfl | hm
    · decide
    · rcases List.mem_cons.mp hm with rfl | hm
      · exact le_of_simpleEscape? hd
      · exact ih c hm
  | @hex a b c d r hdigits _ ih =>
    intro x hm
    have hx : x = .char '\\' ∨ x = .char 'u' ∨ x ∈ [a, b, c, d] ∨ x ∈ r := by
      simpa [or_assoc] using hm
    rcases hx with rfl | rfl | hx | hx
    · decide
    · decide
    · exact (bounds_of_hex? hdigits x hx).2.2
    · exact ih x hx

/-! ### What is read is spelled -/

theorem afterHigh_low {s : Text} {n : Nat} (h : afterHigh s = .low n) :
    ∃ a b c d e r, s = .char '\\' :: .char 'u' :: a :: b :: c :: d :: e :: r ∧
      (hex? [a, b, c, d]).isSome := by
  unfold afterHigh at h
  split at h
  · next a b c d e r =>
    split at h
    · cases h
    · next m hm => exact ⟨a, b, c, d, e, r, rfl, by rw [hm]; rfl⟩
  · cases h

/-- An escape that is read is one of the two kinds, or two of the second. -/
theorem readEscape_spec {o : Nat} {s : Text} {value : CodePoint} {width : Nat}
    (h : readEscape o s = .ok (value, width)) :
    ∃ front back, s = front ++ back ∧ front.length + 1 = width ∧
      ∀ body, Spelled body → Spelled (.char '\\' :: (front ++ body)) := by
  unfold readEscape at h
  split at h
  · cases h
  · next a b c d e r =>
    split at h
    · cases h
    · next n hn =>
      have hdigits : (hex? [a, b, c, d]).isSome := by rw [hn]; rfl
      split at h
      · split at h
        · next m hlow =>
          obtain ⟨rfl, rfl⟩ := Prod.mk.inj (Except.ok.inj h)
          obtain ⟨a', b', c', d', e', r', heq, hdigits'⟩ := afterHigh_low hlow
          refine ⟨[.char 'u', a, b, c, d, .char '\\', .char 'u', a', b', c', d'], e' :: r',
            by rw [heq]; rfl, rfl, fun body hbody => ?_⟩
          exact .hex hdigits (.hex hdigits' hbody)
        · cases h
        · obtain ⟨rfl, rfl⟩ := Prod.mk.inj (Except.ok.inj h)
          exact ⟨[.char 'u', a, b, c, d], e :: r, rfl, rfl, fun body hbody => .hex hdigits hbody⟩
      · obtain ⟨rfl, rfl⟩ := Prod.mk.inj (Except.ok.inj h)
        exact ⟨[.char 'u', a, b, c, d], e :: r, rfl, rfl, fun body hbody => .hex hdigits hbody⟩
  · cases h
  · next d r _ _ =>
    split at h
    · next c hc =>
      obtain ⟨rfl, rfl⟩ := Prod.mk.inj (Except.ok.inj h)
      exact ⟨[d], r, rfl, rfl, fun body hbody => .simple (by rw [hc]; rfl) hbody⟩
    · cases h

theorem readUnit_spec {o : Nat} {c : CodePoint} {r : Text} {value : CodePoint} {width : Nat}
    (hc : c ≠ .char '"') (h : readUnit o c r = .ok (value, width)) :
    ∃ front back, r = front ++ back ∧ front.length + 1 = width ∧
      ∀ body, Spelled body → Spelled (c :: (front ++ body)) := by
  unfold readUnit at h
  split at h
  · next hs =>
    rw [hs]
    exact readEscape_spec h
  · next hs =>
    split at h
    · cases h
    · next hlow =>
      obtain ⟨rfl, rfl⟩ := Prod.mk.inj (Except.ok.inj h)
      exact ⟨[], r, rfl, rfl, fun body hbody => .plain hc hs (by omega) hbody⟩

/-- What is read up to a closing quote is spelled, after the code points that were passed. -/
theorem spelled_of_readString {o p : Nat} {s value rest : Text}
    (h : readString o p s = .ok (value, rest)) :
    ∃ front body, s = front ++ (body ++ .char '"' :: rest) ∧ front.length = p ∧
      Spelled body := by
  induction s generalizing p value with
  | nil => cases p <;> cases h
  | cons c r ih =>
    cases p with
    | succ p =>
      obtain ⟨front, body, rfl, rfl, hbody⟩ := ih h
      exact ⟨c :: front, body, rfl, rfl, hbody⟩
    | zero =>
      simp only [readString] at h
      split at h
      · next hc =>
        obtain ⟨rfl, rfl⟩ := Prod.mk.inj (Except.ok.inj h)
        exact ⟨[], [], by rw [hc]; rfl, rfl, .nil⟩
      · next hc =>
        split at h
        · cases h
        · next u width hunit =>
          split at h
          · cases h
          · next value' rest' hread =>
            obtain ⟨rfl, rfl⟩ := Prod.mk.inj (Except.ok.inj h)
            obtain ⟨front, body, hr, hlen, hbody⟩ := ih hread
            obtain ⟨front', back, hr', hlen', hspelled⟩ := readUnit_spec hc hunit
            -- the unit used as many code points as were passed over
            have hfront : front' = front := by
              have := hr'.symm.trans hr
              exact (List.append_inj this (by omega)).1
            rw [hfront] at hspelled
            exact ⟨[], c :: (front ++ body), by rw [hr]; simp, rfl, hspelled body hbody⟩

/-! ### What is spelled is read -/

/-- Passing over code points that were used. -/
theorem readString_append (o : Nat) (front s : Text) :
    readString o front.length (front ++ s) = readString o 0 s := by
  induction front with
  | nil => rfl
  | cons c front ih => exact ih

theorem afterHigh_of_ne {c : CodePoint} {s : Text} (h : c ≠ .char '\\') :
    afterHigh (c :: s) = .other := by
  unfold afterHigh
  split
  · next heq => exact absurd (List.cons.inj heq).1 h
  · rfl

theorem afterHigh_escape_of_ne {d : CodePoint} {s : Text} (h : d ≠ .char 'u') :
    afterHigh (.char '\\' :: d :: s) = .other := by
  unfold afterHigh
  split
  · next heq => exact absurd (List.cons.inj (List.cons.inj heq).2).1 h
  · rfl

theorem afterHigh_hex {a b c d : CodePoint} {n : Nat} {s : Text} (h : hex? [a, b, c, d] = some n)
    (hs : s ≠ []) :
    afterHigh (.char '\\' :: .char 'u' :: a :: b :: c :: d :: s) =
      if 0xdc00 ≤ n ∧ n ≤ 0xdfff then .low n else .other := by
  cases s with
  | nil => exact absurd rfl hs
  | cons e s => simp [afterHigh, h]

/-- Holds of a text that begins with the second half of a surrogate pair. -/
def StartsLow (s : Text) : Prop :=
  ∃ a b c d r n, s = .char '\\' :: .char 'u' :: a :: b :: c :: d :: r ∧
    hex? [a, b, c, d] = some n ∧ 0xdc00 ≤ n ∧ n ≤ 0xdfff

theorem not_startsLow_of_ne {c : CodePoint} {s : Text} (h : c ≠ .char '\\') :
    ¬ StartsLow (c :: s) := by
  rintro ⟨_, _, _, _, _, _, hs, _⟩
  exact h (List.cons.inj hs).1

theorem not_startsLow_escape {d : CodePoint} {s : Text} (h : d ≠ .char 'u') :
    ¬ StartsLow (.char '\\' :: d :: s) := by
  rintro ⟨_, _, _, _, _, _, hs, _⟩
  exact h (List.cons.inj (List.cons.inj hs).2).1

theorem ne_letter_of_simpleEscape? {d : CodePoint} (h : (simpleEscape? d).isSome) :
    d ≠ .char 'u' := by
  rintro rfl
  rw [simpleEscape?_letter] at h
  cases h

/-- The second half of a pair is one unit of a spelled text. -/
theorem Spelled.startsLow_append {r : Text} (hr : Spelled r) {b : Text}
    (h : StartsLow (r ++ b)) : StartsLow r ∨ StartsLow b := by
  cases hr with
  | nil => exact .inr h
  | plain _ hc _ _ => exact absurd h (not_startsLow_of_ne hc)
  | simple hd _ => exact absurd h (not_startsLow_escape (ne_letter_of_simpleEscape? hd))
  | @hex a b c d r' _ _ =>
    obtain ⟨_, _, _, _, _, n, heq, hn⟩ := h
    simp only [List.cons_append, List.cons.injEq] at heq
    obtain ⟨_, _, rfl, rfl, rfl, rfl, _⟩ := heq
    exact .inl ⟨a, b, c, d, r', n, rfl, hn⟩

/-- The second half of a pair is looked for in the text before the closing quote only. -/
theorem Spelled.afterHigh {r : Text} (h : Spelled r) (hlow : ¬ StartsLow r) (rest : Text) :
    Json.afterHigh (r ++ .char '"' :: rest) = .other := by
  cases h with
  | nil => exact afterHigh_of_ne (by decide)
  | plain _ hc _ _ => exact afterHigh_of_ne hc
  | simple hd _ => exact afterHigh_escape_of_ne (ne_letter_of_simpleEscape? hd)
  | @hex a b c d r' hdigits _ =>
    obtain ⟨n, hn⟩ := Option.isSome_iff_exists.mp hdigits
    refine (afterHigh_hex hn (by simp)).trans (if_neg ?_)
    rintro ⟨hle, hge⟩
    exact hlow ⟨a, b, c, d, r', n, rfl, hn, hle, hge⟩

theorem readUnit_simple {d c : CodePoint} (h : simpleEscape? d = some c) (o : Nat) (r : Text) :
    readUnit o (.char '\\') (d :: r) = .ok (c, 2) := by
  have hd : d ≠ .char 'u' := ne_letter_of_simpleEscape? (by rw [h]; rfl)
  rw [readUnit, if_pos rfl]
  unfold readEscape
  split
  · next heq => cases heq
  · next heq => exact absurd (List.cons.inj heq).1 hd
  · next heq => exact absurd (List.cons.inj heq).1 hd
  · next heq =>
    obtain ⟨rfl, rfl⟩ := List.cons.inj heq
    rw [h]

theorem readUnit_hex {a b c d : CodePoint} {n : Nat} {s : Text} (h : hex? [a, b, c, d] = some n)
    (hs : s ≠ []) (o : Nat) :
    readUnit o (.char '\\') (.char 'u' :: a :: b :: c :: d :: s) =
      if 0xd800 ≤ n ∧ n ≤ 0xdbff then
        match afterHigh s with
        | .low m => .ok (joined n m, 12)
        | .malformed unread => stop .unicodeEscape unread
        | .other => .ok (unit n, 6)
      else .ok (unit n, 6) := by
  cases s with
  | nil => exact absurd rfl hs
  | cons e s =>
    rw [readUnit, if_pos rfl]
    cases hafter : afterHigh (e :: s) <;> simp only [readEscape, h, hafter]

/-- Reading one unit of a string and then the rest of it. -/
theorem readString_unit {o : Nat} {c value : CodePoint} (front : Text) {s v rest : Text}
    (hc : c ≠ .char '"') (hunit : readUnit o c (front ++ s) = .ok (value, front.length + 1))
    (hread : readString o 0 s = .ok (v, rest)) :
    readString o 0 (c :: (front ++ s)) = .ok (value :: v, rest) := by
  simp only [readString, if_neg hc, hunit, Nat.add_sub_cancel, readString_append, hread]

/-- Behind a spelled text only a spelled text makes a spelled text. -/
theorem Spelled.append_iff {a b : Text} (ha : Spelled a) : Spelled (a ++ b) ↔ Spelled b := by
  constructor
  · intro h
    induction ha with
    | nil => exact h
    | @plain c r _ hs _ _ ih =>
      rw [List.cons_append] at h
      generalize r ++ b = x at h ih
      cases h with
      | plain _ _ _ h => exact ih h
      | simple => exact absurd rfl hs
      | hex => exact absurd rfl hs
    | @simple d r hd _ ih =>
      rw [List.cons_append, List.cons_append] at h
      generalize r ++ b = x at h ih
      cases h with
      | plain _ hs => exact absurd rfl hs
      | simple _ h => exact ih h
      | hex =>
        rw [simpleEscape?_letter] at hd
        cases hd
    | @hex a₁ a₂ a₃ a₄ r _ _ ih =>
      simp only [List.cons_append] at h
      generalize r ++ b = x at h ih
      cases h with
      | plain _ hs => exact absurd rfl hs
      | simple hd =>
        rw [simpleEscape?_letter] at hd
        cases hd
      | hex _ h => exact ih h
  · exact ha.append

/-- Says what the text between the quotes of a string is read as: unit by unit, where two escapes
    may write one code point. -/
inductive Decodes : (body value : Text) → Prop where
  | nil : Decodes [] []
  | plain {c : CodePoint} {r v : Text} : c ≠ .char '"' → c ≠ .char '\\' → 0x20 ≤ c.toNat →
      Decodes r v → Decodes (c :: r) (c :: v)
  | simple {d c : CodePoint} {r v : Text} : simpleEscape? d = some c → Decodes r v →
      Decodes (.char '\\' :: d :: r) (c :: v)
  | hex {a b c d : CodePoint} {n : Nat} {r v : Text} : hex? [a, b, c, d] = some n →
      ¬ (0xd800 ≤ n ∧ n ≤ 0xdbff ∧ StartsLow r) → Decodes r v →
      Decodes (.char '\\' :: .char 'u' :: a :: b :: c :: d :: r) (unit n :: v)
  | pair {a b c d a' b' c' d' : CodePoint} {n m : Nat} {r v : Text} : hex? [a, b, c, d] = some n →
      0xd800 ≤ n ∧ n ≤ 0xdbff → hex? [a', b', c', d'] = some m → 0xdc00 ≤ m ∧ m ≤ 0xdfff →
      Decodes r v →
      Decodes (.char '\\' :: .char 'u' :: a :: b :: c :: d ::
        .char '\\' :: .char 'u' :: a' :: b' :: c' :: d' :: r) (joined n m :: v)

variable {body value : Text}

theorem Decodes.spelled (h : Decodes body value) : Spelled body := by
  induction h with
  | nil => exact .nil
  | plain hq hs hc _ ih => exact .plain hq hs hc ih
  | simple hd _ ih => exact .simple (by rw [hd]; rfl) ih
  | hex hn _ _ ih => exact .hex (by rw [hn]; rfl) ih
  | pair hn _ hm _ _ ih => exact .hex (by rw [hn]; rfl) (.hex (by rw [hm]; rfl) ih)

/-- What is spelled is read as some text. -/
theorem Spelled.decodes (h : Spelled body) : ∃ value, Decodes body value := by
  -- a pair of escapes is passed over at once, so the induction is on the length
  induction hn : body.length using Nat.strongRecOn generalizing body with
  | ind n ih =>
    subst hn
    cases h with
    | nil => exact ⟨[], .nil⟩
    | plain hq hs hc hr =>
      obtain ⟨v, hv⟩ := ih _ (by simp only [List.length_cons]; omega) hr rfl
      exact ⟨_, .plain hq hs hc hv⟩
    | simple hd hr =>
      obtain ⟨c, hc⟩ := Option.isSome_iff_exists.mp hd
      obtain ⟨v, hv⟩ := ih _ (by simp only [List.length_cons]; omega) hr rfl
      exact ⟨_, .simple hc hv⟩
    | @hex a b c d r hdigits hr =>
      obtain ⟨n, hn⟩ := Option.isSome_iff_exists.mp hdigits
      by_cases hpair : 0xd800 ≤ n ∧ n ≤ 0xdbff ∧ StartsLow r
      · obtain ⟨hle, hge, _, _, _, _, _, m, rfl, hm, hlow⟩ := hpair
        -- the second escape is spelled as well, and so is what follows it
        have hrest := (Spelled.hex (by rw [hm]; rfl) .nil).append_iff.mp hr
        obtain ⟨v, hv⟩ := ih _ (by simp only [List.length_cons]; omega) hrest rfl
        exact ⟨_, .pair hn ⟨hle, hge⟩ hm hlow hv⟩
      · obtain ⟨v, hv⟩ := ih _ (by simp only [List.length_cons]; omega) hr rfl
        exact ⟨_, .hex hn hpair hv⟩

/-- Reading takes one unit after another. -/
theorem Decodes.readString (h : Decodes body value) (o : Nat) (rest : Text) :
    Json.readString o 0 (body ++ .char '"' :: rest) = .ok (value, rest) := by
  have hbackslash : CodePoint.char '\\' ≠ .char '"' := by decide
  induction h with
  | nil => simp [Json.readString]
  | plain hq hs hc _ ih =>
    refine readString_unit [] hq ?_ ih
    rw [readUnit, if_neg hs, if_neg (by omega)]
    rfl
  | @simple d c r v hd _ ih => exact readString_unit [d] hbackslash (readUnit_simple hd o _) ih
  | @hex a b c d n r v hn hpair hr ih =>
    have hunit : readUnit o (.char '\\')
        (.char 'u' :: a :: b :: c :: d :: (r ++ .char '"' :: rest)) = .ok (unit n, 6) := by
      rw [readUnit_hex hn (by simp)]
      by_cases hhigh : 0xd800 ≤ n ∧ n ≤ 0xdbff
      · have hlow : ¬ StartsLow r := fun h => hpair ⟨hhigh.1, hhigh.2, h⟩
        rw [if_pos hhigh, hr.spelled.afterHigh hlow]
      · rw [if_neg hhigh]
    exact readString_unit [.char 'u', a, b, c, d] hbackslash hunit ih
  | @pair a b c d a' b' c' d' n m r v hn hhigh hm hlow _ ih =>
    have hunit : readUnit o (.char '\\') (.char 'u' :: a :: b :: c :: d ::
        .char '\\' :: .char 'u' :: a' :: b' :: c' :: d' :: (r ++ .char '"' :: rest)) =
          .ok (joined n m, 12) := by
      rw [readUnit_hex hn (by simp), if_pos hhigh, afterHigh_hex hm (by simp), if_pos hlow]
    exact readString_unit [.char 'u', a, b, c, d, .char '\\', .char 'u', a', b', c', d']
      hbackslash hunit ih

/-- **What is spelled is read up to the quote that follows it**, and what it is read as does
    not depend on what comes after the quote. -/
theorem Spelled.readString (h : Spelled body) :
    ∃ v, ∀ o rest, Json.readString o 0 (body ++ .char '"' :: rest) = .ok (v, rest) := by
  obtain ⟨v, hv⟩ := h.decodes
  exact ⟨v, hv.readString⟩

/-- Texts that are read one after another are read together, unless a surrogate pair meets
    between them. -/
theorem Decodes.append {a b v w : Text} (ha : Decodes a v) (hb : Decodes b w)
    (hlow : ¬ StartsLow b) : Decodes (a ++ b) (v ++ w) := by
  induction ha with
  | nil => exact hb
  | plain hq hs hc _ ih => exact .plain hq hs hc ih
  | simple hd _ ih => exact .simple hd ih
  | hex hn hpair hr ih =>
    refine .hex hn ?_ ih
    rintro ⟨hle, hge, h⟩
    rcases hr.spelled.startsLow_append h with h | h
    · exact hpair ⟨hle, hge, h⟩
    · exact hlow h
  | pair hn hhigh hm hlow' _ ih => exact .pair hn hhigh hm hlow' ih

/-- Holds of a code point that is no part of an escape, or that escapes itself. -/
def Literal (q : CodePoint) : Prop :=
  q ≠ .char '\\' ∧ q ≠ .char 'u' ∧ Number.digitValue? q = none ∧
    ∀ c, simpleEscape? q = some c → c = q

/-- Such a code point is read wherever it stands. -/
theorem Decodes.mem_of_mem {q : CodePoint} (hq : Literal q) (h : Decodes body value)
    (hmem : q ∈ body) : q ∈ value := by
  obtain ⟨hbackslash, hletter, hdigit, hescape⟩ := hq
  have hdigits : ∀ {digits : Text} {n : Nat}, hex? digits = some n → q ∉ digits := by
    intro digits n hn hmem
    have hvalue := isSome_digitValue?_of_natOf? (by rw [hex?] at hn; rw [hn]; rfl) q hmem
    rw [hdigit] at hvalue
    cases hvalue
  induction h with
  | nil => cases hmem
  | plain _ _ _ _ ih =>
    rcases List.mem_cons.mp hmem with rfl | hmem
    · exact List.mem_cons_self
    · exact List.mem_cons_of_mem _ (ih hmem)
  | simple hd _ ih =>
    rcases List.mem_cons.mp hmem with rfl | hmem
    · exact absurd rfl hbackslash
    · rcases List.mem_cons.mp hmem with rfl | hmem
      · rw [hescape _ hd]
        exact List.mem_cons_self
      · exact List.mem_cons_of_mem _ (ih hmem)
  | @hex a b c d _ r _ hn _ _ ih =>
    have hrest : q ∈ [a, b, c, d] ∨ q ∈ r := by
      simpa [hbackslash, hletter, or_assoc] using hmem
    exact List.mem_cons_of_mem _ (ih (hrest.resolve_left (hdigits hn)))
  | @pair a b c d a' b' c' d' _ _ r _ hn _ hm _ _ ih =>
    have hrest : q ∈ [a, b, c, d] ∨ q ∈ [a', b', c', d'] ∨ q ∈ r := by
      simpa [hbackslash, hletter, or_assoc] using hmem
    exact List.mem_cons_of_mem _
      (ih ((hrest.resolve_left (hdigits hn)).resolve_left (hdigits hm)))

/-- A text without quotes, backslashes and controls is read as it is. -/
theorem decodes_self {s : Text} (hs : ∀ c ∈ s, c ≠ .char '"' ∧ c ≠ .char '\\' ∧ 0x20 ≤ c.toNat) :
    Decodes s s := by
  induction s with
  | nil => exact .nil
  | cons c s ih =>
    obtain ⟨⟨hq, hb, hc⟩, hmore⟩ := List.forall_mem_cons.mp hs
    exact .plain hq hb hc (ih hmore)

/-- Holds of the text between the quotes of a string that is read as another text. -/
def Writes (body value : Text) : Prop :=
  Spelled body ∧ ∀ o rest, Json.readString o 0 (body ++ .char '"' :: rest) = .ok (value, rest)

theorem Spelled.writes {body : Text} (h : Spelled body) : ∃ value, Writes body value := by
  obtain ⟨v, hv⟩ := h.readString
  exact ⟨v, h, hv⟩

/-- What is read is read unit by unit. -/
theorem writes_iff_decodes : Writes body value ↔ Decodes body value := by
  refine ⟨fun h => ?_, fun h => ⟨h.spelled, h.readString⟩⟩
  obtain ⟨v, hv⟩ := h.1.decodes
  have hvalue := (hv.readString 0 []).symm.trans (h.2 0 [])
  obtain rfl := (Prod.mk.inj (Except.ok.inj hvalue)).1
  exact hv

/-- A string is read up to the quote after the text that writes it. -/
theorem writes_of_readString {o : Nat} {s value rest : Text}
    (h : readString o 0 s = .ok (value, rest)) :
    ∃ body, Writes body value ∧ s = body ++ .char '"' :: rest := by
  obtain ⟨front, body, rfl, hfront, hbody⟩ := spelled_of_readString h
  -- nothing was passed over before the string
  obtain rfl := List.eq_nil_of_length_eq_zero hfront
  obtain ⟨v, hv⟩ := hbody.readString
  have hvalue : v = value := (Prod.mk.inj (Except.ok.inj ((hv o rest).symm.trans h))).1
  exact ⟨body, ⟨hbody, hvalue ▸ hv⟩, rfl⟩

/-! ### Cutting -/

/-- A spelled text may be cut before an escaped quote, unless the backslash of the quote is
    itself escaped. -/
theorem Spelled.take_escapedQuote {s : Text} (h : Spelled s) {a b : Text} {e : CodePoint}
    (hs : s = a ++ e :: .char '\\' :: .char '"' :: b) (he : e ≠ .char '\\') :
    Spelled (a ++ [e]) := by
  induction h generalizing a with
  | nil => simp at hs
  | plain hq hb hc _ ih =>
    cases a with
    | nil =>
      obtain ⟨rfl, _⟩ := List.cons.inj hs
      exact .plain hq hb hc .nil
    | cons x a =>
      obtain ⟨rfl, hs'⟩ := List.cons.inj hs
      exact .plain hq hb hc (ih hs')
  | simple hd _ ih =>
    cases a with
    | nil => exact absurd (List.cons.inj hs).1.symm he
    | cons x a =>
      obtain ⟨rfl, hs'⟩ := List.cons.inj hs
      cases a with
      | nil =>
        obtain ⟨rfl, _⟩ := List.cons.inj hs'
        exact .simple hd .nil
      | cons y a =>
        obtain ⟨rfl, hs''⟩ := List.cons.inj hs'
        exact .simple hd (ih hs'')
  | @hex a₁ a₂ a₃ a₄ r hdigits _ ih =>
    have hne : ∀ c ∈ [a₁, a₂, a₃, a₄], c ≠ .char '\\' :=
      fun c hc => (bounds_of_hex? hdigits c hc).2.1
    -- the backslash stands at none of the four digits
    rcases a with _ | ⟨x₁, _ | ⟨x₂, _ | ⟨x₃, _ | ⟨x₄, _ | ⟨x₅, _ | ⟨x₆, a⟩⟩⟩⟩⟩⟩ <;>
      simp only [List.nil_append, List.cons_append, List.cons.injEq] at hs
    · exact absurd hs.1.symm he
    · exact absurd hs.2.2.1 (hne _ (by simp))
    · exact absurd hs.2.2.2.1 (hne _ (by simp))
    · exact absurd hs.2.2.2.2.1 (hne _ (by simp))
    · exact absurd hs.2.2.2.2.2.1 (hne _ (by simp))
    · obtain ⟨rfl, rfl, rfl, rfl, rfl, rfl, _⟩ := hs
      exact .hex hdigits .nil
    · obtain ⟨rfl, rfl, rfl, rfl, rfl, rfl, hs⟩ := hs
      exact .hex hdigits (ih hs)

end Json

end ClangDb
