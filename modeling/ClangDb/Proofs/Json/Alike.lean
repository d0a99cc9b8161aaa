import ClangDb.Proofs.Json.Weight

/-! # Values that differ at one key

    Two values are alike if they differ only in texts that are members of a
    given key, at any depth.  If the key is a key of the outermost objects alone,
    two arrays of objects that are alike are records that are the same but for
    the text at the key.

    Key theorems:
    - `Alike.collect`: the last of two members with one key wins on both sides,
    - `sameRecords_of_alike`: what remains the same,
    - `SameRecord.weight_eq`: the weights agree.
-/

namespace ClangDb

namespace Json

variable {key : Text}

/-! ### Alike -/

/-- Holds of items that differ only in texts at a key. -/
inductive Alike (key : Text) : Item → Item → Prop where
  | same (item : Item) : Alike key item item
  | array {vs vs' : List Json} : Alike key (.elements vs) (.elements vs') →
      Alike key (.value (.array vs)) (.value (.array vs'))
  | object {ms ms' : List (Text × Json)} : Alike key (.members ms) (.members ms') →
      Alike key (.value (.object ms)) (.value (.object ms'))
  | element {v v' : Json} {vs vs' : List Json} : Alike key (.value v) (.value v') →
      Alike key (.elements vs) (.elements vs') →
      Alike key (.elements (v :: vs)) (.elements (v' :: vs'))
  | member {k : Text} {v v' : Json} {ms ms' : List (Text × Json)} :
      Alike key (.value v) (.value v') → Alike key (.members ms) (.members ms') →
      Alike key (.members ((k, v) :: ms)) (.members ((k, v') :: ms'))
  | text {t t' : Text} {ms ms' : List (Text × Json)} : Alike key (.members ms) (.members ms') →
      Alike key (.members ((key, .string t) :: ms)) (.members ((key, .string t') :: ms'))

theorem Alike.value_inv {key : Text} {v : Json} {item' : Item}
    (h : Alike key (.value v) item') : ∃ v', item' = .value v' := by
  cases h <;> exact ⟨_, rfl⟩

theorem Alike.elements_inv {key : Text} {vs : List Json} {item' : Item}
    (h : Alike key (.elements vs) item') : ∃ vs', item' = .elements vs' := by
  cases h <;> exact ⟨_, rfl⟩

theorem Alike.members_inv {key : Text} {ms : List (Text × Json)} {item' : Item}
    (h : Alike key (.members ms) item') : ∃ ms', item' = .members ms' := by
  cases h <;> exact ⟨_, rfl⟩

/-- Holds of the values of two members with one key. -/
def AlikeAt (key k : Text) (v v' : Json) : Prop :=
  Alike key (.value v) (.value v') ∨ (k = key ∧ ∃ t t', v = .string t ∧ v' = .string t')

theorem Alike.cons {k : Text} {v v' : Json} {ms ms' : List (Text × Json)}
    (hv : AlikeAt key k v v') (h : Alike key (.members ms) (.members ms')) :
    Alike key (.members ((k, v) :: ms)) (.members ((k, v') :: ms')) := by
  rcases hv with hv | ⟨rfl, t, t', rfl, rfl⟩
  · exact .member hv h
  · exact .text h

theorem Alike.nil_inv {ms' : List (Text × Json)} (h : Alike key (.members []) (.members ms')) :
    ms' = [] := by
  cases h
  rfl

theorem Alike.cons_inv {k : Text} {v : Json} {ms ns : List (Text × Json)}
    (h : Alike key (.members ((k, v) :: ms)) (.members ns)) :
    ∃ v' ms', ns = (k, v') :: ms' ∧ AlikeAt key k v v' ∧
      Alike key (.members ms) (.members ms') := by
  cases h with
  | same => exact ⟨v, ms, rfl, .inl (.same _), .same _⟩
  | member hv hms => exact ⟨_, _, rfl, .inl hv, hms⟩
  | text hms => exact ⟨_, _, rfl, .inr ⟨rfl, _, _, rfl, rfl⟩, hms⟩

theorem Alike.setMember {k : Text} {v v' : Json} {ms ms' : List (Text × Json)}
    (hv : AlikeAt key k v v') (h : Alike key (.members ms) (.members ms')) :
    Alike key (.members (setMember k v ms)) (.members (setMember k v' ms')) := by
  induction ms generalizing ms' with
  | nil =>
    obtain rfl := h.nil_inv
    exact .cons hv (.same _)
  | cons m ms ih =>
    obtain ⟨k₁, v₁⟩ := m
    -- the keys agree, so the member is found at the same place
    obtain ⟨v₂, ms₂, rfl, hv₂, hms⟩ := h.cons_inv
    simp only [Json.setMember]
    split
    · next hk => exact .cons (hk ▸ hv) hms
    · exact .cons hv₂ (ih hms)

theorem Alike.collectInto {ms ms' seen seen' : List (Text × Json)}
    (hseen : Alike key (.members seen) (.members seen'))
    (h : Alike key (.members ms) (.members ms')) :
    Alike key (.members (collectInto seen ms)) (.members (collectInto seen' ms')) := by
  induction ms generalizing ms' seen seen' with
  | nil =>
    obtain rfl := h.nil_inv
    exact hseen
  | cons m ms ih =>
    obtain ⟨k, v⟩ := m
    obtain ⟨v', ms', rfl, hv, hms⟩ := h.cons_inv
    rw [collectInto_cons, collectInto_cons]
    exact ih (hseen.setMember hv) hms

/-- Members that are alike are alike when the last of those with one key wins. -/
theorem Alike.collect {ms ms' : List (Text × Json)} (h : Alike key (.members ms) (.members ms')) :
    Alike key (.members (collect ms)) (.members (collect ms')) := by
  rw [collect_eq, collect_eq]
  exact Alike.collectInto (.same _) h

/-! ### Keys inside a value -/

mutual

/-- Whether an object in a value has a key. -/
def mentions (key : Text) : Json → Bool
  | .array vs => mentionsElements key vs
  | .object ms => mentionsMembers key ms
  | _ => false

/-- Whether an object in one of the elements has a key. -/
def mentionsElements (key : Text) : List Json → Bool
  | [] => false
  | v :: r => mentions key v || mentionsElements key r

/-- Whether an object with such members, or one in a value of theirs, has a key. -/
def mentionsMembers (key : Text) : List (Text × Json) → Bool
  | [] => false
  | (k, v) :: r => k = key || mentions key v || mentionsMembers key r

end

/-- Whether an object in an item has a key. -/
def Item.mentions (key : Text) : Item → Bool
  | .value v => v.mentions key
  | .elements vs => mentionsElements key vs
  | .members ms => mentionsMembers key ms

/-- What does not mention the key is alike to itself only. -/
theorem Alike.eq_of_not_mentions {item item' : Item} (h : Alike key item item')
    (hkey : item.mentions key = false) : item' = item := by
  induction h with
  | same => rfl
  | array _ ih =>
    have := ih hkey
    rw [Item.elements.inj this]
  | object _ ih =>
    have := ih hkey
    rw [Item.members.inj this]
  | element _ _ ih₁ ih₂ =>
    simp only [Item.mentions, mentionsElements, Bool.or_eq_false_iff] at hkey
    rw [Item.value.inj (ih₁ hkey.1), Item.elements.inj (ih₂ hkey.2)]
  | member _ _ ih₁ ih₂ =>
    simp only [Item.mentions, mentionsMembers, Bool.or_eq_false_iff] at hkey
    rw [Item.value.inj (ih₁ hkey.1.2), Item.members.inj (ih₂ hkey.2)]
  | text _ _ => simp [Item.mentions, mentionsMembers] at hkey

/-! ### Records -/

/-- Holds of two members with one key whose values are equal, or texts if it is the key that
    is given. -/
def SameMember (key : Text) (m m' : Text × Json) : Prop :=
  m'.1 = m.1 ∧ (m'.2 = m.2 ∨ (m.1 = key ∧ ∃ t t', m.2 = .string t ∧ m'.2 = .string t'))

/-- Holds of two objects with the same keys in the same order and the same values, except
    that the text at the given key may be another. -/
def SameRecord (key : Text) (v v' : Json) : Prop :=
  ∃ ms ms', v = .object ms ∧ v' = .object ms' ∧ List.Forall₂ (SameMember key) ms ms'

/-- Whether a value is an object in whose values no object has the key. -/
def isFlat (key : Text) : Json → Bool
  | .object ms => ms.all fun m => !m.2.mentions key
  | _ => false

theorem sameMembers_of_alike {ms ms' : List (Text × Json)}
    (h : Alike key (.members ms) (.members ms')) (hflat : ∀ m ∈ ms, m.2.mentions key = false) :
    List.Forall₂ (SameMember key) ms ms' := by
  induction ms generalizing ms' with
  | nil =>
    obtain rfl := h.nil_inv
    exact .nil
  | cons m ms ih =>
    obtain ⟨k, v⟩ := m
    obtain ⟨v', ms', rfl, hv, hms⟩ := h.cons_inv
    refine .cons ⟨rfl, ?_⟩ (ih hms fun m hm => hflat m (List.mem_cons_of_mem _ hm))
    rcases hv with hv | htext
    · have := hv.eq_of_not_mentions (hflat _ List.mem_cons_self)
      exact .inl (Item.value.inj this)
    · exact .inr htext

/-- A flat object that is alike to a value is the same record. -/
theorem sameRecord_of_alike {v v' : Json} (h : Alike key (.value v) (.value v'))
    (hflat : v.isFlat key = true) : SameRecord key v v' := by
  cases v with
  | object ms =>
    have hms : ∀ m ∈ ms, m.2.mentions key = false := by
      intro m hm
      simpa using List.all_eq_true.mp hflat m hm
    cases h with
    | same => exact ⟨ms, ms, rfl, rfl, sameMembers_of_alike (.same _) hms⟩
    | object h => exact ⟨ms, _, rfl, rfl, sameMembers_of_alike h hms⟩
  | _ => cases hflat

/-- **Arrays of flat objects that are alike hold the same records.** -/
theorem sameRecords_of_alike {vs vs' : List Json} (h : Alike key (.elements vs) (.elements vs'))
    (hflat : ∀ v ∈ vs, v.isFlat key = true) : List.Forall₂ (SameRecord key) vs vs' := by
  induction vs generalizing vs' with
  | nil =>
    cases h
    exact .nil
  | cons v vs ih =>
    have htail : ∀ v ∈ vs, v.isFlat key = true := fun v hv => hflat v (List.mem_cons_of_mem _ hv)
    cases h with
    | same =>
      exact .cons (sameRecord_of_alike (.same _) (hflat v List.mem_cons_self))
        (ih (.same _) htail)
    | element hv hvs =>
      exact .cons (sameRecord_of_alike hv (hflat v List.mem_cons_self)) (ih hvs htail)

theorem weightMembers_eq_of_forall₂ {ms ms' : List (Text × Json)}
    (h : List.Forall₂ (SameMember key) ms ms') : weightMembers ms' = weightMembers ms := by
  induction h with
  | nil => rfl
  | @cons m m' ms ms' hm _ ih =>
    obtain ⟨k, v⟩ := m
    obtain ⟨k', v'⟩ := m'
    simp only [weightMembers, ih]
    rcases hm.2 with heq | ⟨_, t, t', hv, hv'⟩
    · rw [show v' = v from heq]
    · rw [show v = .string t from hv, show v' = .string t' from hv']
      rfl

/-- The same record weighs the same. -/
theorem SameRecord.weight_eq {v v' : Json} (h : SameRecord key v v') : v'.weight = v.weight := by
  obtain ⟨ms, ms', rfl, rfl, hms⟩ := h
  simp only [weight, weightMembers_eq_of_forall₂ hms]

theorem weight_array_eq {vs vs' : List Json} (h : List.Forall₂ (SameRecord key) vs vs') :
    (Json.array vs').weight = (Json.array vs).weight := by
  simp only [weight]
  induction h with
  | nil => rfl
  | cons hv _ ih => rw [weightElements, weightElements, hv.weight_eq, ih]

end Json

end ClangDb
