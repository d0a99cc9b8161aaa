import ClangDb.Proofs.Json.Atoms
import ClangDb.Proofs.Json.Strings

/-! # A grammar of JSON

    `Reads` says of a text, without fuel, what stands at its head and what is
    left.  It is the reader turned into rules, one for each way in which a value,
    the elements of an array or the members of an object can go on, so that facts
    about documents are proved by induction on how they were read.  The rule for
    objects asks a property of the keys as they are written, before of two equal
    ones the last wins.

    Key theorems:
    - `reads_of_readValue`: what the reader reads follows the rules,
    - `Reads.readBy`: what follows the rules is read, with fuel to spare,
    - `Reads.functional`: a text is read in one way only.
-/

namespace ClangDb

namespace Json

/-- What stands at the head of a text. -/
inductive Item where
  | value (v : Json)
  | elements (vs : List Json)
  | members (ms : List (Text × Json))

/-- The three kinds of items. -/
inductive Kind where
  | value
  | elements
  | members

/-- The kind of an item. -/
def Item.kind : Item → Kind
  | .value _ => .value
  | .elements _ => .elements
  | .members _ => .members

/-- Holds of a text that begins with an item, nested in no more than so many containers, and
    of what is left; `P` holds of the keys of each object. -/
inductive Reads (P : List Text → Prop) : (depth : Nat) → Text → Item → Text → Prop where
  | string {d : Nat} {body v r : Text} : Writes body v →
      Reads P d (.char '"' :: (body ++ .char '"' :: r)) (.value (.string v)) r
  | atom {d : Nat} {s r : Text} {v : Json} : readAtom s = .ok (v, r) →
      Reads P d s (.value v) r
  | emptyArray {d : Nat} {x r : Text} : skip x = .char ']' :: r →
      Reads P (d + 1) (.char '[' :: x) (.value (.array [])) r
  | array {d : Nat} {x r : Text} {vs : List Json} : Reads P d (skip x) (.elements vs) r →
      Reads P (d + 1) (.char '[' :: x) (.value (.array vs)) r
  | emptyObject {d : Nat} {x r : Text} : skip x = .char '\x7d' :: r →
      Reads P (d + 1) (.char '\x7b' :: x) (.value (.object [])) r
  | object {d : Nat} {x r : Text} {ms : List (Text × Json)} : P (ms.map Prod.fst) →
      Reads P d (skip x) (.members ms) r →
      Reads P (d + 1) (.char '\x7b' :: x) (.value (.object (collect ms))) r
  | lastElement {d : Nat} {s x r : Text} {v : Json} : Reads P d s (.value v) x →
      skip x = .char ']' :: r → Reads P d s (.elements [v]) r
  | element {d : Nat} {s x y r : Text} {v : Json} {vs : List Json} : Reads P d s (.value v) x →
      skip x = .char ',' :: y → Reads P d (skip y) (.elements vs) r →
      Reads P d s (.elements (v :: vs)) r
  | lastMember {d : Nat} {body k x y z r : Text} {v : Json} : Writes body k →
      skip x = .char ':' :: y → Reads P d (skip y) (.value v) z → skip z = .char '\x7d' :: r →
      Reads P d (.char '"' :: (body ++ .char '"' :: x)) (.members [(k, v)]) r
  | member {d : Nat} {body k x y z w r : Text} {v : Json} {ms : List (Text × Json)} :
      Writes body k → skip x = .char ':' :: y → Reads P d (skip y) (.value v) z →
      skip z = .char ',' :: w → Reads P d (skip w) (.members ms) r →
      Reads P d (.char '"' :: (body ++ .char '"' :: x)) (.members ((k, v) :: ms)) r

/-- Holds of any keys. -/
def AnyKeys : List Text → Prop := fun _ => True

variable {P : List Text → Prop} {d : Nat} {s r : Text} {item : Item}

/-- Weaker demands on keys. -/
theorem Reads.anyKeys (h : Reads P d s item r) : Reads AnyKeys d s item r := by
  induction h with
  | string hw => exact .string hw
  | atom ha => exact .atom ha
  | emptyArray hx => exact .emptyArray hx
  | array _ ih => exact .array ih
  | emptyObject hx => exact .emptyObject hx
  | object _ _ ih => exact .object trivial ih
  | lastElement _ hx ih => exact .lastElement ih hx
  | element _ hx _ ih₁ ih₂ => exact .element ih₁ hx ih₂
  | lastMember hw hx _ hz ih => exact .lastMember hw hx ih hz
  | member hw hx _ hz _ ih₁ ih₂ => exact .member hw hx ih₁ hz ih₂

/-- Elements begin with a value, and a bracket or a comma follows. -/
theorem Reads.elements_inv {vs : List Json} (h : Reads P d s (.elements vs) r) :
    ∃ v x, Reads P d s (.value v) x ∧ (skip x = .char ']' :: r ∨
      ∃ y vs', skip x = .char ',' :: y ∧ Reads P d (skip y) (.elements vs') r) := by
  cases h with
  | lastElement hv hx => exact ⟨_, _, hv, .inl hx⟩
  | element hv hx hvs => exact ⟨_, _, hv, .inr ⟨_, _, hx, hvs⟩⟩

/-- Members begin with a key and a value, and a brace or a comma follows. -/
theorem Reads.members_inv {ms : List (Text × Json)} (h : Reads P d s (.members ms) r) :
    ∃ body k x y v z, s = .char '"' :: (body ++ .char '"' :: x) ∧ Writes body k ∧
      skip x = .char ':' :: y ∧ Reads P d (skip y) (.value v) z ∧
      (skip z = .char '\x7d' :: r ∨
        ∃ w ms', skip z = .char ',' :: w ∧ Reads P d (skip w) (.members ms') r) := by
  cases h with
  | lastMember hw hx hv hz => exact ⟨_, _, _, _, _, _, rfl, hw, hx, hv, .inl hz⟩
  | member hw hx hv hz hms => exact ⟨_, _, _, _, _, _, rfl, hw, hx, hv, .inr ⟨_, _, hz, hms⟩⟩

/-! ### The reader follows the rules -/

theorem reads_of_read (fuel : Nat) :
    (∀ d s v r, readValue fuel d s = .ok (v, r) → Reads AnyKeys d s (.value v) r) ∧
      (∀ d s vs r, readElements fuel d s = .ok (vs, r) → Reads AnyKeys d s (.elements vs) r) ∧
      ∀ d s ms r, readMembers fuel d s = .ok (ms, r) → Reads AnyKeys d s (.members ms) r := by
  induction fuel with
  | zero => exact ⟨fun _ _ _ _ h => (by cases h), fun _ _ _ _ h => (by cases h),
      fun _ _ _ _ h => (by cases h)⟩
  | succ fuel ih =>
    obtain ⟨ihv, ihe, ihm⟩ := ih
    refine ⟨?_, ?_, ?_⟩
    · -- a value, one case for each way in which it can begin
      intro d s v r h
      unfold readValue at h
      split at h
      · next t =>
        split at h
        · cases h
        · next value rest hstring =>
          obtain ⟨rfl, rfl⟩ := Prod.mk.inj (Except.ok.inj h)
          obtain ⟨body, hbody, rfl⟩ := writes_of_readString hstring
          exact .string hbody
      · next t =>
        split at h
        · cases h
        · next d =>
          split at h
          · next rest hskip =>
            obtain ⟨rfl, rfl⟩ := Prod.mk.inj (Except.ok.inj h)
            exact .emptyArray hskip
          · split at h
            · cases h
            · next vs rest helements =>
              obtain ⟨rfl, rfl⟩ := Prod.mk.inj (Except.ok.inj h)
              exact .array (ihe _ _ _ _ helements)
      · next t =>
        split at h
        · cases h
        · next d =>
          split at h
          · next rest hskip =>
            obtain ⟨rfl, rfl⟩ := Prod.mk.inj (Except.ok.inj h)
            exact .emptyObject hskip
          · split at h
            · cases h
            · next ms rest hmembers =>
              obtain ⟨rfl, rfl⟩ := Prod.mk.inj (Except.ok.inj h)
              exact .object trivial (ihm _ _ _ _ hmembers)
      · exact .atom h
    · -- elements: a value and then a bracket or a comma
      intro d s vs r h
      unfold readElements at h
      split at h
      · cases h
      · next v x hvalue =>
        have hv := ihv _ _ _ _ hvalue
        split at h
        · next rest hskip =>
          obtain ⟨rfl, rfl⟩ := Prod.mk.inj (Except.ok.inj h)
          exact .lastElement hv hskip
        · next y hskip =>
          split at h
          · cases h
          · next vs rest helements =>
            obtain ⟨rfl, rfl⟩ := Prod.mk.inj (Except.ok.inj h)
            exact .element hv hskip (ihe _ _ _ _ helements)
        · cases h
    · -- members: a key, a value and then a brace or a comma
      intro d s ms r h
      unfold readMembers at h
      split at h
      · next t =>
        split at h
        · cases h
        · next k x hkey =>
          obtain ⟨body, hbody, rfl⟩ := writes_of_readString hkey
          split at h
          · next y hcolon =>
            split at h
            · cases h
            · next v z hvalue =>
              have hv := ihv _ _ _ _ hvalue
              split at h
              · next rest hskip =>
                obtain ⟨rfl, rfl⟩ := Prod.mk.inj (Except.ok.inj h)
                exact .lastMember hbody hcolon hv hskip
              · next w hskip =>
                split at h
                · cases h
                · next ms rest hmembers =>
                  obtain ⟨rfl, rfl⟩ := Prod.mk.inj (Except.ok.inj h)
                  exact .member hbody hcolon hv hskip (ihm _ _ _ _ hmembers)
              · cases h
          · cases h
      · cases h

theorem reads_of_readValue {fuel : Nat} {v : Json} (h : readValue fuel d s = .ok (v, r)) :
    Reads AnyKeys d s (.value v) r :=
  (reads_of_read fuel).1 d s v r h

/-! ### The rules are followed by the reader -/

theorem length_skip_le (s : Text) : (skip s).length ≤ s.length :=
  (List.dropWhile_sublist isSpace).length_le

theorem length_le_of_skip {s r : Text} {c : CodePoint} (h : skip s = c :: r) :
    r.length + 1 ≤ s.length := by
  have := length_skip_le s
  rwa [h] at this

/-- An item is not empty. -/
theorem Reads.length_lt (h : Reads P d s item r) : r.length < s.length := by
  induction h with
  | string => simp only [List.length_cons, List.length_append]; omega
  | atom ha =>
    obtain ⟨p, hp, rfl, _⟩ := readAtom_spec ha
    have := List.length_pos_iff.mpr hp
    rw [List.length_append]
    omega
  | @emptyArray d x r hx =>
    have := length_le_of_skip hx
    rw [List.length_cons]
    omega
  | @array d x r vs _ ih =>
    have := length_skip_le x
    rw [List.length_cons]
    omega
  | @emptyObject d x r hx =>
    have := length_le_of_skip hx
    rw [List.length_cons]
    omega
  | @object d x r ms _ _ ih =>
    have := length_skip_le x
    rw [List.length_cons]
    omega
  | lastElement _ hx ih =>
    have := length_le_of_skip hx
    omega
  | @element d s x y r v vs _ hx _ ih₁ ih₂ =>
    have := length_le_of_skip hx
    have := length_skip_le y
    omega
  | @lastMember d body k x y z r v _ hx _ hz ih =>
    have := length_le_of_skip hx
    have := length_skip_le y
    have := length_le_of_skip hz
    simp only [List.length_cons, List.length_append]
    omega
  | @member d body k x y z w r v ms _ hx _ hz _ ih₁ ih₂ =>
    have := length_le_of_skip hx
    have := length_skip_le y
    have := length_le_of_skip hz
    have := length_skip_le w
    simp only [List.length_cons, List.length_append]
    omega

/-- Elements do not begin as an array ends. -/
theorem Reads.head_ne (h : Reads P d s item r) : s.head? ≠ some (.char ']') := by
  -- a number or a word begins with an atomic code point
  have hatom : ∀ {t r : Text} {v : Json}, readAtom t = .ok (v, r) →
      t.head? ≠ some (.char ']') := by
    intro t r v ha hhead
    obtain ⟨p, hp, rfl, hatomic⟩ := readAtom_spec ha
    cases p with
    | nil => exact hp rfl
    | cons c p =>
      have hc := (hatomic c List.mem_cons_self).2.2.1
      exact hc (by simpa using hhead)
  induction h with
  | atom ha => exact hatom ha
  | lastElement _ _ ih => exact ih
  | element _ _ _ ih _ => exact ih
  | _ => simp

/-- How an item is read with fuel. -/
def Item.ReadBy (fuel d : Nat) (s r : Text) : Item → Prop
  | .value v => readValue fuel d s = .ok (v, r)
  | .elements vs => readElements fuel d s = .ok (vs, r)
  | .members ms => readMembers fuel d s = .ok (ms, r)

/-- The fuel that is not needed beyond two for each code point. -/
def Item.spare : Item → Nat
  | .value _ => 1
  | _ => 0

theorem readValue_atom {v : Json} (fuel : Nat) (h : readAtom s = .ok (v, r)) :
    readValue (fuel + 1) d s = .ok (v, r) := by
  obtain ⟨p, hp, rfl, hatomic⟩ := readAtom_spec h
  cases p with
  | nil => exact absurd rfl hp
  | cons c p =>
    obtain ⟨hquote, hbracket, _, hbrace, _⟩ := hatomic c List.mem_cons_self
    unfold readValue
    split
    · next heq => exact absurd (List.cons.inj heq).1 hquote
    · next heq => exact absurd (List.cons.inj heq).1 hbracket
    · next heq => exact absurd (List.cons.inj heq).1 hbrace
    · exact h

/-- **What follows the rules is read**, if there is fuel for twice its length. -/
theorem Reads.readBy (h : Reads P d s item r) {fuel : Nat}
    (hfuel : 2 * s.length ≤ fuel + 2 * r.length + item.spare) : item.ReadBy fuel d s r := by
  have hlt := h.length_lt
  induction h generalizing fuel with
  | @string d body v r hw =>
    obtain ⟨fuel, rfl⟩ : ∃ n, fuel = n + 1 :=
      ⟨fuel - 1, by simp only [Item.spare] at hfuel; omega⟩
    simp only [Item.ReadBy, readValue, hw.2]
  | atom ha =>
    obtain ⟨fuel, rfl⟩ : ∃ n, fuel = n + 1 :=
      ⟨fuel - 1, by simp only [Item.spare] at hfuel; omega⟩
    exact readValue_atom fuel ha
  | emptyArray hx =>
    obtain ⟨fuel, rfl⟩ : ∃ n, fuel = n + 1 :=
      ⟨fuel - 1, by simp only [Item.spare] at hfuel; omega⟩
    simp only [Item.ReadBy, readValue, hx]
  | @array d x r vs he ih =>
    simp only [List.length_cons, Item.spare] at hfuel hlt
    obtain ⟨fuel, rfl⟩ : ∃ n, fuel = n + 1 := ⟨fuel - 1, by omega⟩
    have hskip := length_skip_le x
    have helements := @ih fuel (by simp only [Item.spare]; omega) he.length_lt
    simp only [Item.ReadBy] at helements ⊢
    unfold readValue
    simp only
    -- the array is not empty, as no element begins with a bracket
    split
    · next heq => exact absurd (by rw [heq]; rfl) he.head_ne
    · rw [helements]
  | emptyObject hx =>
    obtain ⟨fuel, rfl⟩ : ∃ n, fuel = n + 1 :=
      ⟨fuel - 1, by simp only [Item.spare] at hfuel; omega⟩
    simp only [Item.ReadBy, readValue, hx]
  | @object d x r ms _ hm ih =>
    simp only [List.length_cons, Item.spare] at hfuel hlt
    obtain ⟨fuel, rfl⟩ : ∃ n, fuel = n + 1 := ⟨fuel - 1, by omega⟩
    have hskip := length_skip_le x
    have hmembers := @ih fuel (by simp only [Item.spare]; omega) hm.length_lt
    simp only [Item.ReadBy] at hmembers ⊢
    unfold readValue
    simp only
    split
    · next heq =>
      -- members begin with a quote
      rw [heq] at hm
      cases hm
    · rw [hmembers]
  | lastElement hv hx ih =>
    have hlt' := hv.length_lt
    have hrest := length_le_of_skip hx
    simp only [Item.spare] at hfuel
    obtain ⟨fuel, rfl⟩ : ∃ n, fuel = n + 1 := ⟨fuel - 1, by omega⟩
    have hvalue := @ih fuel (by simp only [Item.spare]; omega) hlt'
    simp only [Item.ReadBy] at hvalue ⊢
    simp only [readElements, hvalue, hx]
  | @element d s x y r v vs hv hx he ih₁ ih₂ =>
    have hlt' := hv.length_lt
    have hrest := length_le_of_skip hx
    have hskip := length_skip_le y
    have hlt'' := he.length_lt
    simp only [Item.spare] at hfuel
    obtain ⟨fuel, rfl⟩ : ∃ n, fuel = n + 1 := ⟨fuel - 1, by omega⟩
    have hvalue := @ih₁ fuel (by simp only [Item.spare]; omega) hlt'
    have helements := @ih₂ fuel (by simp only [Item.spare]; omega) hlt''
    simp only [Item.ReadBy] at hvalue helements ⊢
    simp only [readElements, hvalue, hx, helements]
  | @lastMember d body k x y z r v hw hx hv hz ih =>
    have hcolon := length_le_of_skip hx
    have hskip := length_skip_le y
    have hlt' := hv.length_lt
    have hrest := length_le_of_skip hz
    simp only [List.length_cons, List.length_append, Item.spare] at hfuel
    obtain ⟨fuel, rfl⟩ : ∃ n, fuel = n + 1 := ⟨fuel - 1, by omega⟩
    have hvalue := @ih fuel (by simp only [Item.spare]; omega) hlt'
    simp only [Item.ReadBy] at hvalue ⊢
    simp only [readMembers, hw.2, hx, hvalue, hz]
  | @member d body k x y z w r v ms hw hx hv hz hm ih₁ ih₂ =>
    have hcolon := length_le_of_skip hx
    have hskip := length_skip_le y
    have hlt' := hv.length_lt
    have hrest := length_le_of_skip hz
    have hskip' := length_skip_le w
    have hlt'' := hm.length_lt
    simp only [List.length_cons, List.length_append, Item.spare] at hfuel
    obtain ⟨fuel, rfl⟩ : ∃ n, fuel = n + 1 := ⟨fuel - 1, by omega⟩
    have hvalue := @ih₁ fuel (by simp only [Item.spare]; omega) hlt'
    have hmembers := @ih₂ fuel (by simp only [Item.spare]; omega) hlt''
    simp only [Item.ReadBy] at hvalue hmembers ⊢
    simp only [readMembers, hw.2, hx, hvalue, hz, hmembers]

/-! ### Documents -/

/-- Holds of a text that is one value with blanks around it. -/
def Document (P : List Text → Prop) (s : Text) (v : Json) : Prop :=
  s.head? ≠ some (.char '\ufeff') ∧ ∃ r, Reads P depthLimit (skip s) (.value v) r ∧ skip r = []

theorem readDocument_eq_ok_iff {v : Json} : readDocument s = .ok v ↔ Document AnyKeys s v := by
  -- the reader has fuel for two calls on each code point
  have hfuel : ∀ r : Text, 2 * (skip s).length ≤ 2 * s.length + 2 + 2 * r.length + 1 := by
    intro r
    have := length_skip_le s
    omega
  unfold readDocument
  split
  · constructor
    · intro h
      cases h
    · rintro ⟨hhead, _⟩
      exact absurd rfl hhead
  · next hmark =>
    have hhead : s.head? ≠ some (.char '\ufeff') := by
      intro h
      cases s with
      | nil => cases h
      | cons c t => exact hmark t (by rw [Option.some.inj h])
    constructor
    · intro h
      split at h
      · cases h
      · next value r hvalue =>
        split at h
        · next hskip =>
          obtain rfl := Except.ok.inj h
          exact ⟨hhead, r, reads_of_readValue hvalue, hskip⟩
        · cases h
    · rintro ⟨_, r, hreads, hskip⟩
      have hvalue : readValue (2 * s.length + 2) depthLimit (skip s) = .ok (v, r) :=
        hreads.readBy (hfuel r)
      rw [hvalue]
      simp only [hskip]

/-- **A document is read as the value that it is.** -/
theorem read_eq_ok_iff {v : Json} : read s = .ok v ↔ Document AnyKeys s v := by
  rw [← readDocument_eq_ok_iff, read]
  cases readDocument s <;> simp [Except.mapError]

theorem Document.anyKeys {v : Json} (h : Document P s v) : Document AnyKeys s v := by
  obtain ⟨hhead, r, hreads, hskip⟩ := h
  exact ⟨hhead, r, hreads.anyKeys, hskip⟩

/-- **A text is read in one way only.** -/
theorem Reads.functional {Q : List Text → Prop} {item' : Item} {r' : Text}
    (h : Reads P d s item r) (h' : Reads Q d s item' r') (hkind : item'.kind = item.kind) :
    item' = item ∧ r' = r := by
  -- the reader is a function, and it reads both items
  have hread := @Reads.readBy _ _ _ _ _ h (2 * s.length) (by omega)
  have hread' := @Reads.readBy _ _ _ _ _ h' (2 * s.length) (by omega)
  cases item <;> cases item' <;> cases hkind
  all_goals
    obtain ⟨rfl, rfl⟩ := Prod.mk.inj (Except.ok.inj (hread'.symm.trans hread))
    exact ⟨rfl, rfl⟩

end Json

end ClangDb
