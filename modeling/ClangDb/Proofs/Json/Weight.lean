import ClangDb.Proofs.Json.Pieces

/-! # The weight of a document

    The tally of a text counts its closed strings and the closing braces
    outside strings, and the weight of a value counts its texts, keys and
    objects.  A document has the tally that its value weighs, as long as no
    object has a key twice: of two members with one key only the last counts.  So
    the strings that a document has lost cannot be made up for elsewhere.

    Key theorems:
    - `tally_append`: tallies add up over pieces,
    - `Reads.weight_le`: what is read weighs no more than its text,
    - `document_nodup_iff`: it weighs as much if and only if it repeats no key.
-/

namespace ClangDb

namespace Json

open Database (IsBody)

/-! ### Tallies -/

/-- Where a tally stands. -/
inductive Mode where
  | outside
  | inside
  | escaped

/-- The number of strings that are closed and of closing braces outside strings. -/
def tally : Mode → Text → Nat
  | _, [] => 0
  | .outside, c :: r =>
    if c = .char '"' then tally .inside r
    else if c = .char '\x7d' then tally .outside r + 1
    else tally .outside r
  | .inside, c :: r =>
    if c = .char '"' then tally .outside r + 1
    else if c = .char '\\' then tally .escaped r
    else tally .inside r
  | .escaped, _ :: r => tally .inside r

/-- The tally from outside a string. -/
abbrev tallyOf (s : Text) : Nat := tally .outside s

variable {s a b : Text}

@[simp] theorem tallyOf_nil : tallyOf [] = 0 := rfl

theorem tallyOf_brace (s : Text) : tallyOf (.char '\x7d' :: s) = tallyOf s + 1 := rfl

theorem tallyOf_cons {c : CodePoint} (h₁ : c ≠ .char '"') (h₂ : c ≠ .char '\x7d') (s : Text) :
    tallyOf (c :: s) = tallyOf s := by
  rw [tallyOf, tally, if_neg h₁, if_neg h₂]

theorem tally_inside {body : Text} (h : IsBody body) (s : Text) :
    tally .inside (body ++ .char '"' :: s) = tallyOf s + 1 := by
  induction h with
  | nil => rfl
  | plain h₁ h₂ _ ih => rw [List.cons_append, tally, if_neg h₁, if_neg h₂, ih]
  | escape _ ih => exact ih

/-- A string counts as one. -/
theorem tallyOf_quoted {body : Text} (h : IsBody body) (s : Text) :
    tallyOf (quoted body s) = tallyOf s + 1 :=
  tally_inside h s

/-- **Tallies add up over pieces.** -/
theorem tally_append (h : Pieces a) (b : Text) : tallyOf (a ++ b) = tallyOf a + tallyOf b := by
  induction h with
  | nil => rw [List.nil_append, tallyOf_nil, Nat.zero_add]
  | @plain c s hc _ ih =>
    by_cases hbrace : c = .char '\x7d'
    · rw [hbrace, List.cons_append, tallyOf_brace, tallyOf_brace, ih]
      omega
    · rw [List.cons_append, tallyOf_cons hc hbrace, tallyOf_cons hc hbrace, ih]
  | @string body s hbody _ _ ih =>
    have hassoc : quoted body s ++ b = quoted body (s ++ b) := by simp [quoted]
    rw [hassoc, tallyOf_quoted hbody.isBody, tallyOf_quoted hbody.isBody, ih]
    omega

theorem tallyOf_skip (s : Text) : tallyOf (skip s) = tallyOf s := by
  induction s with
  | nil => rfl
  | cons c s ih =>
    cases hc : isSpace c with
    | true =>
      have hbrace : c ≠ .char '\x7d' := by
        rintro rfl
        exact absurd hc (by decide)
      rw [skip_cons_of_space hc, ih, tallyOf_cons (isSpace_ne hc) hbrace]
    | false => rw [skip_cons_of_not_space hc]

/-- The tally behind a delimiter other than a brace. -/
theorem tallyOf_of_skip {c : CodePoint} {r : Text} (h : skip s = c :: r) (hc : isDelimiter c = true)
    (hbrace : c ≠ .char '\x7d') : tallyOf s = tallyOf r := by
  have hquote : c ≠ .char '"' := by
    rintro rfl
    exact absurd hc (by decide)
  rw [← tallyOf_skip, h, tallyOf_cons hquote hbrace]

theorem tallyOf_of_skip_brace {r : Text} (h : skip s = .char '\x7d' :: r) :
    tallyOf s = tallyOf r + 1 := by
  rw [← tallyOf_skip, h, tallyOf_brace]

theorem tallyOf_append_of_atomic (h : ∀ c ∈ a, IsAtomic c) (b : Text) :
    tallyOf (a ++ b) = tallyOf b := by
  induction a with
  | nil => rfl
  | cons c a ih =>
    obtain ⟨hquote, _, _, _, hbrace⟩ := h c List.mem_cons_self
    rw [List.cons_append, tallyOf_cons hquote hbrace,
      ih fun d hd => h d (List.mem_cons_of_mem _ hd)]

/-- Holds of a text without strings and closing braces. -/
def Light (s : Text) : Prop := .char '"' ∉ s ∧ .char '\x7d' ∉ s

theorem light_cons {c : CodePoint} :
    Light (c :: s) ↔ (c ≠ .char '"' ∧ c ≠ .char '\x7d') ∧ Light s := by
  simp only [Light, List.mem_cons, not_or]
  constructor
  · rintro ⟨⟨h₁, h₂⟩, h₃, h₄⟩
    exact ⟨⟨Ne.symm h₁, Ne.symm h₃⟩, h₂, h₄⟩
  · rintro ⟨⟨h₁, h₃⟩, h₂, h₄⟩
    exact ⟨⟨Ne.symm h₁, h₂⟩, Ne.symm h₃, h₄⟩

/-- Pieces without tally are light. -/
theorem Pieces.light (h : Pieces s) (ht : tallyOf s = 0) : Light s := by
  induction h with
  | nil => exact ⟨by simp, by simp⟩
  | @plain c s hc _ ih =>
    by_cases hbrace : c = .char '\x7d'
    · rw [hbrace, tallyOf_brace] at ht
      omega
    · rw [tallyOf_cons hc hbrace] at ht
      exact light_cons.mpr ⟨⟨hc, hbrace⟩, ih ht⟩
  | string hbody _ _ _ =>
    rw [tallyOf_quoted hbody.isBody] at ht
    omega

/-! ### Weights -/

mutual

/-- The number of texts, keys and objects in a value. -/
def weight : Json → Nat
  | .string _ => 1
  | .array vs => weightElements vs
  | .object ms => weightMembers ms + 1
  | _ => 0

/-- The weight of elements. -/
def weightElements : List Json → Nat
  | [] => 0
  | v :: r => weight v + weightElements r

/-- The weight of members with their keys. -/
def weightMembers : List (Text × Json) → Nat
  | [] => 0
  | (_, v) :: r => weight v + 1 + weightMembers r

end

/-- The weight of an item; members come with the brace that closes them. -/
def Item.weight : Item → Nat
  | .value v => v.weight
  | .elements vs => weightElements vs
  | .members ms => weightMembers ms + 1

theorem weightMembers_append (ms ns : List (Text × Json)) :
    weightMembers (ms ++ ns) = weightMembers ms + weightMembers ns := by
  induction ms with
  | nil => simp [weightMembers]
  | cons m ms ih =>
    simp only [List.cons_append, weightMembers, ih]
    omega

theorem weightMembers_setMember_le (k : Text) (v : Json) (ms : List (Text × Json)) :
    weightMembers (setMember k v ms) ≤ weightMembers ms + (v.weight + 1) := by
  induction ms with
  | nil => simp [setMember, weightMembers]
  | cons m ms ih =>
    obtain ⟨k', v'⟩ := m
    rw [setMember]
    split
    · simp only [weightMembers]
      omega
    · simp only [weightMembers]
      omega

/-- Adds members one after another to those that are there. -/
def collectInto (seen ms : List (Text × Json)) : List (Text × Json) :=
  ms.foldl (fun seen (key, value) => setMember key value seen) seen

theorem collect_eq (ms : List (Text × Json)) : collect ms = collectInto [] ms := rfl

theorem collectInto_nil (seen : List (Text × Json)) : collectInto seen [] = seen := rfl

theorem collectInto_cons (seen : List (Text × Json)) (k : Text) (v : Json)
    (ms : List (Text × Json)) :
    collectInto seen ((k, v) :: ms) = collectInto (setMember k v seen) ms := rfl

theorem weightMembers_collectInto_le (seen ms : List (Text × Json)) :
    weightMembers (collectInto seen ms) ≤ weightMembers seen + weightMembers ms := by
  induction ms generalizing seen with
  | nil => exact Nat.le_add_right _ _
  | cons m ms ih =>
    obtain ⟨k, v⟩ := m
    -- the new value comes at the end, or in the place of an old one
    have hset := weightMembers_setMember_le k v seen
    have hrest := ih (setMember k v seen)
    rw [collectInto_cons]
    simp only [weightMembers]
    omega

/-- Members whose keys are written more than once weigh less. -/
theorem weightMembers_collect_le (ms : List (Text × Json)) :
    weightMembers (collect ms) ≤ weightMembers ms := by
  have := weightMembers_collectInto_le [] ms
  rwa [weightMembers, Nat.zero_add] at this

theorem setMember_of_not_mem {k : Text} {ms : List (Text × Json)} (h : k ∉ ms.map Prod.fst)
    (v : Json) : setMember k v ms = ms ++ [(k, v)] := by
  induction ms with
  | nil => rfl
  | cons m ms ih =>
    rw [List.map_cons, List.mem_cons, not_or] at h
    rw [setMember, if_neg (Ne.symm h.1), ih h.2]
    rfl

theorem collectInto_of_nodup {ms seen : List (Text × Json)}
    (h : ((seen ++ ms).map Prod.fst).Nodup) : collectInto seen ms = seen ++ ms := by
  induction ms generalizing seen with
  | nil => rw [collectInto_nil, List.append_nil]
  | cons m ms ih =>
    obtain ⟨k, v⟩ := m
    -- the keys that were seen and this one are among the distinct ones
    have hk : k ∉ seen.map Prod.fst := by
      rw [List.map_append, List.nodup_append] at h
      intro hmem
      exact h.2.2 k hmem k (by simp) rfl
    rw [collectInto_cons, setMember_of_not_mem hk, ih (by simpa using h), List.append_assoc]
    rfl

/-- Members with distinct keys are kept as they are. -/
theorem collect_of_nodup {ms : List (Text × Json)} (h : (ms.map Prod.fst).Nodup) :
    collect ms = ms :=
  collectInto_of_nodup h

theorem weightMembers_setMember_lt {k : Text} {ms : List (Text × Json)} (h : k ∈ ms.map Prod.fst)
    (v : Json) : weightMembers (setMember k v ms) < weightMembers ms + (v.weight + 1) := by
  induction ms with
  | nil => cases h
  | cons m ms ih =>
    obtain ⟨k', v'⟩ := m
    rw [setMember]
    split
    · simp only [weightMembers]
      omega
    · next hne =>
      have hmem : k ∈ ms.map Prod.fst :=
        (List.mem_cons.mp h).resolve_left fun heq => hne heq.symm
      have := ih hmem
      simp only [weightMembers]
      omega

theorem nodup_of_weightMembers_collectInto {ms seen : List (Text × Json)}
    (hseen : (seen.map Prod.fst).Nodup)
    (h : weightMembers (collectInto seen ms) = weightMembers seen + weightMembers ms) :
    ((seen ++ ms).map Prod.fst).Nodup := by
  induction ms generalizing seen with
  | nil => rwa [List.append_nil]
  | cons m ms ih =>
    obtain ⟨k, v⟩ := m
    rw [collectInto_cons, weightMembers] at h
    have hle := weightMembers_collectInto_le (setMember k v seen) ms
    -- the key is new, since else the old value would be missing
    have hk : k ∉ seen.map Prod.fst := by
      intro hmem
      have := weightMembers_setMember_lt hmem v
      omega
    rw [setMember_of_not_mem hk] at h
    have hnodup : ((seen ++ [(k, v)]).map Prod.fst).Nodup := by
      rw [List.map_append, List.nodup_append]
      refine ⟨hseen, by simp, ?_⟩
      rintro x hx y hy rfl
      obtain rfl := List.mem_singleton.mp hy
      exact hk hx
    have hrest := ih hnodup (by
      rw [h, weightMembers_append, weightMembers, weightMembers]
      omega)
    rwa [List.append_assoc] at hrest

/-- Members that are kept with all their weight have distinct keys. -/
theorem nodup_of_weightMembers_collect {ms : List (Text × Json)}
    (h : weightMembers (collect ms) = weightMembers ms) : (ms.map Prod.fst).Nodup := by
  have hempty : weightMembers (collectInto [] ms) = weightMembers [] + weightMembers ms := by
    rw [← collect_eq, h, weightMembers, Nat.zero_add]
  have hnil : (([] : List (Text × Json)).map Prod.fst).Nodup := List.nodup_nil
  have := nodup_of_weightMembers_collectInto hnil hempty
  simpa using this

/-! ### Documents -/

theorem weight_of_readParts {negative : Bool} {parts : Text × Text} {v : Json} {r : Text}
    (h : readParts s negative parts = .ok (v, r)) : v.weight = 0 := by
  simp only [readParts] at h
  split at h
  · cases h
  · split at h
    · split at h
      · obtain ⟨rfl, _⟩ := Prod.mk.inj (Except.ok.inj h)
        rfl
      · cases h
      · cases h
    · split at h
      · obtain ⟨rfl, _⟩ := Prod.mk.inj (Except.ok.inj h)
        rfl
      · cases h

/-- Words and numbers weigh nothing. -/
theorem weight_of_readAtom {v : Json} {r : Text} (h : readAtom s = .ok (v, r)) : v.weight = 0 := by
  unfold readAtom at h
  split at h
  · -- none of the words is a text or an object
    next found hword =>
    obtain rfl := Except.ok.inj h
    obtain ⟨word, hmem, _⟩ := readWord?_spec hword
    have hwords : ∀ w ∈ words, w.2.weight = 0 := by decide
    exact hwords _ hmem
  · rw [readNumber_eq] at h
    exact weight_of_readParts h

/-- An item weighs no more than its text, and as much if members are kept as they are. -/
theorem Reads.weight_le {P : List Text → Prop} {d : Nat} {r : Text} {item : Item}
    (h : Reads P d s item r) :
    item.weight + tallyOf r ≤ tallyOf s ∧
      ((∀ ms : List (Text × Json), P (ms.map Prod.fst) → collect ms = ms) →
        item.weight + tallyOf r = tallyOf s) := by
  induction h with
  | string hw =>
    rw [tallyOf_quoted hw.1.isBody]
    simp only [Item.weight, weight]
    exact ⟨by omega, fun _ => by omega⟩
  | @atom d s r v ha =>
    obtain ⟨p, _, rfl, hatomic⟩ := readAtom_spec ha
    rw [tallyOf_append_of_atomic hatomic]
    simp only [Item.weight, weight_of_readAtom ha]
    exact ⟨by omega, fun _ => by omega⟩
  | emptyArray hx =>
    rw [tallyOf_cons (by decide) (by decide), tallyOf_of_skip hx (by decide) (by decide)]
    simp only [Item.weight, weight, weightElements]
    exact ⟨by omega, fun _ => by omega⟩
  | @array d x r vs _ ih =>
    rw [tallyOf_cons (by decide) (by decide), ← tallyOf_skip x]
    exact ih
  | emptyObject hx =>
    rw [tallyOf_cons (by decide) (by decide), tallyOf_of_skip_brace hx]
    simp only [Item.weight, weight, weightMembers]
    exact ⟨by omega, fun _ => by omega⟩
  | @object d x r ms hkeys _ ih =>
    rw [tallyOf_cons (by decide) (by decide), ← tallyOf_skip x]
    -- an object weighs what its members do, less those that were overwritten
    have hcollect := weightMembers_collect_le ms
    simp only [Item.weight, weight] at ih ⊢
    refine ⟨by omega, fun hP => ?_⟩
    rw [hP ms hkeys]
    exact ih.2 hP
  | lastElement _ hx ih =>
    rw [tallyOf_of_skip hx (by decide) (by decide)] at ih
    simpa only [Item.weight, weightElements, Nat.add_zero] using ih
  | @element d s x y r v vs _ hx _ ih₁ ih₂ =>
    rw [tallyOf_of_skip hx (by decide) (by decide), ← tallyOf_skip y] at ih₁
    simp only [Item.weight, weightElements] at ih₁ ih₂ ⊢
    refine ⟨by omega, fun hP => ?_⟩
    have h₁ := ih₁.2 hP
    have h₂ := ih₂.2 hP
    omega
  | @lastMember d body k x y z r v hw hx _ hz ih =>
    rw [tallyOf_of_skip_brace hz] at ih
    rw [tallyOf_quoted hw.1.isBody, tallyOf_of_skip hx (by decide) (by decide), ← tallyOf_skip y]
    simp only [Item.weight, weightMembers] at ih ⊢
    refine ⟨by omega, fun hP => ?_⟩
    have := ih.2 hP
    omega
  | @member d body k x y z w r v ms hw hx _ hz _ ih₁ ih₂ =>
    rw [tallyOf_of_skip hz (by decide) (by decide), ← tallyOf_skip w] at ih₁
    rw [tallyOf_quoted hw.1.isBody, tallyOf_of_skip hx (by decide) (by decide), ← tallyOf_skip y]
    simp only [Item.weight, weightMembers] at ih₁ ih₂ ⊢
    refine ⟨by omega, fun hP => ?_⟩
    have h₁ := ih₁.2 hP
    have h₂ := ih₂.2 hP
    omega

/-- A value weighs no more than its document. -/
theorem Document.weight_le {P : List Text → Prop} {v : Json} (h : Document P s v) :
    v.weight ≤ tallyOf s := by
  obtain ⟨_, r, hreads, _⟩ := h
  have := hreads.weight_le.1
  rw [tallyOf_skip] at this
  exact Nat.le_trans (Nat.le_add_right _ _) this

/-- A document without repeated keys weighs as much as its value. -/
theorem Document.tally_eq {v : Json} (h : Document List.Nodup s v) : tallyOf s = v.weight := by
  obtain ⟨_, r, hreads, hr⟩ := h
  have heq := hreads.weight_le.2 fun _ => collect_of_nodup
  rw [tallyOf_skip, ← tallyOf_skip r, hr] at heq
  exact heq.symm

/-- An item that weighs as much as its text repeats no key. -/
theorem Reads.nodup_of_weight {d : Nat} {r : Text} {item : Item} (h : Reads AnyKeys d s item r)
    (heq : item.weight + tallyOf r = tallyOf s) : Reads List.Nodup d s item r := by
  induction h with
  | string hw => exact .string hw
  | atom ha => exact .atom ha
  | emptyArray hx => exact .emptyArray hx
  | @array d x r vs _ ih =>
    rw [tallyOf_cons (by decide) (by decide), ← tallyOf_skip x] at heq
    exact .array (ih heq)
  | emptyObject hx => exact .emptyObject hx
  | @object d x r ms _ hms ih =>
    -- no weight was lost below, and none when the members were collected
    have hle := hms.weight_le.1
    have hcollect := weightMembers_collect_le ms
    rw [tallyOf_cons (by decide) (by decide), ← tallyOf_skip x] at heq
    simp only [Item.weight, weight] at heq hle ih
    exact .object (nodup_of_weightMembers_collect (by omega)) (ih (by omega))
  | lastElement _ hx ih =>
    rw [← tallyOf_of_skip hx (by decide) (by decide)] at heq
    simp only [Item.weight, weightElements, Nat.add_zero] at heq ih
    exact .lastElement (ih heq) hx
  | @element d s x y r v vs hv hx hvs ih₁ ih₂ =>
    have hle₁ := hv.weight_le.1
    have hle₂ := hvs.weight_le.1
    rw [tallyOf_of_skip hx (by decide) (by decide), ← tallyOf_skip y] at hle₁ ih₁
    simp only [Item.weight, weightElements] at heq hle₁ hle₂ ih₁ ih₂
    exact .element (ih₁ (by omega)) hx (ih₂ (by omega))
  | @lastMember d body k x y z r v hw hx hv hz ih =>
    rw [tallyOf_quoted hw.1.isBody, tallyOf_of_skip hx (by decide) (by decide),
      ← tallyOf_skip y] at heq
    rw [tallyOf_of_skip_brace hz] at ih
    simp only [Item.weight, weightMembers] at heq ih
    exact .lastMember hw hx (ih (by omega)) hz
  | @member d body k x y z w r v ms hw hx hv hz hms ih₁ ih₂ =>
    have hle₁ := hv.weight_le.1
    have hle₂ := hms.weight_le.1
    rw [tallyOf_quoted hw.1.isBody, tallyOf_of_skip hx (by decide) (by decide),
      ← tallyOf_skip y] at heq
    rw [tallyOf_of_skip hz (by decide) (by decide), ← tallyOf_skip w] at hle₁ ih₁
    simp only [Item.weight, weightMembers] at heq hle₁ hle₂ ih₁ ih₂
    exact .member hw hx (ih₁ (by omega)) hz (ih₂ (by omega))

/-- **A document repeats no key if and only if it weighs as much as its value.** -/
theorem document_nodup_iff {v : Json} :
    Document List.Nodup s v ↔ Document AnyKeys s v ∧ tallyOf s = v.weight := by
  constructor
  · intro h
    exact ⟨h.anyKeys, h.tally_eq⟩
  · rintro ⟨⟨hhead, r, hreads, hr⟩, heq⟩
    refine ⟨hhead, r, hreads.nodup_of_weight ?_, hr⟩
    rw [tallyOf_skip, ← tallyOf_skip r, hr, heq]
    rfl

end Json

end ClangDb
