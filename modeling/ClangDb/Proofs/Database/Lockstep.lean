import ClangDb.Proofs.Database.Recast

/-! # Reading a text and its recast form

    A text and its recast form are read in lockstep.  Where the text has a command
    that is rewritten, the two readers are in step again behind it if the drop is
    a comma and the new text can be read.  If the drop is blank, the new comma
    stands before the end of the object or beside the comma of the next line, and
    the recast text is unreadable; there is no third kind of drop, since a light
    one neither opens a string nor closes an object.

    Key theorems:
    - `lockstep_of_reads`: an item,
    - `document_recast`: a document.
-/

namespace ClangDb

namespace Database

open Json

variable {d : Nat} {s s' r : Text} {item : Item} {ws : List Rewrite}

/-- Holds of a text in which no item of a kind can be read. -/
def Unreadable (d : Nat) (kind : Kind) (s : Text) : Prop :=
  ∀ item r, item.kind = kind → ¬ Reads AnyKeys d s item r

/-- Holds of rewrites of which some do not fit. -/
def Spoiled (ws : List Rewrite) : Prop := ∃ w ∈ ws, ¬ w.Fits

/-- Holds of an item and of what is left behind it, if the recast text begins with an item
    that is alike; the rewrites inside the item fit. -/
def InStep (ws : List Rewrite) (d : Nat) (s' : Text) (item : Item) (r : Text) : Prop :=
  ∃ item' r' used rest, ws = used ++ rest ∧ (∀ w ∈ used, w.Fits) ∧
    Reads AnyKeys d s' item' r' ∧ Alike commandName item item' ∧ Recast rest r r'

/-- Holds of a key that was taken for a value. -/
def IsKey (item : Item) (r : Text) : Prop := item.kind = .value ∧ ∃ t, skip r = .char ':' :: t

/-- What becomes of an item in the recast text. -/
def Follows (ws : List Rewrite) (d : Nat) (s' : Text) (item : Item) (r : Text) : Prop :=
  InStep ws d s' item r ∨ IsKey item r ∨ (Unreadable d item.kind s' ∧ Spoiled ws)

/-- Holds of an item that is followed in every recast form of its text with light drops. -/
def Lockstep (d : Nat) (s : Text) (item : Item) (r : Text) : Prop :=
  ∀ {ws : List Rewrite} {s' : Text}, Recast ws s s' → (∀ w ∈ ws, Light w.drop) →
    Follows ws d s' item r

theorem isKey_elim {c : CodePoint} {t : Text} (h : IsKey item r) (hr : skip r = c :: t)
    (hc : c ≠ .char ':') : False := by
  obtain ⟨_, t', ht⟩ := h
  exact hc (List.cons.inj (hr.symm.trans ht)).1

theorem Spoiled.of_rest {used rest : List Rewrite} (h : Spoiled rest) : Spoiled (used ++ rest) := by
  obtain ⟨w, hw, hfits⟩ := h
  exact ⟨w, List.mem_append_right _ hw, hfits⟩

/-! ### Values that are no containers -/

/-- Words and numbers are the same in both texts. -/
theorem lockstep_atom {v : Json} (ha : readAtom s = .ok (v, r)) : Lockstep d s (.value v) r := by
  intro ws s' h _
  obtain ⟨q, y, y', rfl, rfl, hy, hy', hrest, hq⟩ := h.split
  obtain ⟨r', rfl, ha'⟩ := readAtom_append hy hy' ha
  obtain ⟨p, _, hp, _⟩ := readAtom_spec ha
  -- what is left of the text before the first quote has no quote
  have hqr : q = p ++ r' := List.append_cancel_right (by rw [hp, List.append_assoc])
  have hr' : ∀ c ∈ r', c ≠ .char '"' := fun c hc => hq c (by simp [hqr, hc])
  exact .inl ⟨.value v, r' ++ y', [], ws, rfl, by simp, .atom ha', .same _,
    hrest.append_left hr'⟩

/-- A string is the same in both texts, unless it is the key of a command. -/
theorem lockstep_string {body v : Text} (hw : Writes body v) :
    Lockstep d (quoted body r) (.value (.string v)) r := by
  intro ws s' h _
  rcases h.quoted_inv hw.1 with ⟨t, rfl, ht⟩ | ⟨w, ws', t, t', rfl, rfl, rfl, rfl, _⟩
  · exact .inl ⟨_, t, [], ws, rfl, by simp, .string hw, .same _, ht⟩
  · exact .inr (.inl ⟨rfl, _, skip_cons_of_not_space (by decide) _⟩)

/-! ### Containers -/

theorem lockstep_array {x : Text} {vs : List Json}
    (hvs : Reads AnyKeys d (skip x) (.elements vs) r) (ih : Lockstep d (skip x) (.elements vs) r) :
    Lockstep (d + 1) (.char '[' :: x) (.value (.array vs)) r := by
  intro ws s' h hlight
  obtain ⟨x', rfl, hx⟩ := h.cons_inv (by decide)
  rcases ih hx.skip hlight with ⟨item', r', used, rest, rfl, hused, hreads, halike, hrest⟩ |
    hkey | ⟨hun, hspoiled⟩
  · obtain ⟨vs', rfl⟩ := halike.elements_inv
    exact .inl ⟨_, r', used, rest, rfl, hused, .array hreads, .array halike, hrest⟩
  · exact absurd hkey.1 (by simp [Item.kind])
  · refine .inr (.inr ⟨?_, hspoiled⟩)
    intro item' r' hkind hreads
    cases hreads with
    | atom ha => exact not_readAtom_cons (by decide) ha
    | emptyArray hx' =>
      -- an empty array would begin with the bracket that ends it, and so would the old elements
      have hhead := hx.skip.head?_eq
      rw [hx'] at hhead
      exact hvs.head_ne hhead.symm
    | @array _ _ _ vs' hvs' => exact hun (.elements vs') _ rfl hvs'
    | lastElement => cases hkind
    | element => cases hkind

theorem lockstep_object {x : Text} {ms : List (Text × Json)}
    (hms : Reads AnyKeys d (skip x) (.members ms) r) (ih : Lockstep d (skip x) (.members ms) r) :
    Lockstep (d + 1) (.char '\x7b' :: x) (.value (.object (collect ms))) r := by
  intro ws s' h hlight
  obtain ⟨x', rfl, hx⟩ := h.cons_inv (by decide)
  rcases ih hx.skip hlight with ⟨item', r', used, rest, rfl, hused, hreads, halike, hrest⟩ |
    hkey | ⟨hun, hspoiled⟩
  · obtain ⟨ms', rfl⟩ := halike.members_inv
    exact .inl ⟨_, r', used, rest, rfl, hused, .object trivial hreads, .object halike.collect,
      hrest⟩
  · exact absurd hkey.1 (by simp [Item.kind])
  · refine .inr (.inr ⟨?_, hspoiled⟩)
    intro item' r' hkind hreads
    cases hreads with
    | atom ha => exact not_readAtom_cons (by decide) ha
    | emptyObject hx' =>
      -- members begin with a quote, and so they do in the recast text
      have hhead := hx.skip.head?_eq
      obtain ⟨_, _, _, _, _, _, hquote, _⟩ := hms.members_inv
      rw [hx', hquote] at hhead
      cases hhead
    | @object _ _ _ ms' _ hms' => exact hun (.members ms') _ rfl hms'
    | lastElement => cases hkind
    | element => cases hkind

/-! ### Elements -/

theorem unreadable_elements (h : Unreadable d .value s) : Unreadable d .elements s := by
  intro item r hkind hreads
  cases item with
  | elements vs =>
    obtain ⟨v, x, hv, _⟩ := hreads.elements_inv
    exact h (.value v) x rfl hv
  | _ => cases hkind

theorem lockstep_element {x y : Text} {v : Json} {vs : List Json}
    (ih₁ : Lockstep d s (.value v) x) (hx : skip x = .char ',' :: y)
    (ih₂ : Lockstep d (skip y) (.elements vs) r) : Lockstep d s (.elements (v :: vs)) r := by
  intro ws s' h hlight
  rcases ih₁ h hlight with ⟨item', x', used, rest, rfl, hused, hreads, halike, hrest⟩ |
    hkey | ⟨hun, hspoiled⟩
  · obtain ⟨v', rfl⟩ := halike.value_inv
    obtain ⟨y', hx', hy⟩ := hrest.skip_inv hx (by decide)
    rcases ih₂ hy.skip fun w hw => hlight w (List.mem_append_right _ hw) with
      ⟨item', r', used', rest', rfl, hused', hreads', halike', hrest'⟩ | hkey | ⟨hun, hspoiled⟩
    · obtain ⟨vs', rfl⟩ := halike'.elements_inv
      refine .inl ⟨_, r', used ++ used', rest', by simp, ?_, .element hreads hx' hreads',
        .element halike halike', hrest'⟩
      exact List.forall_mem_append.mpr ⟨hused, hused'⟩
    · exact absurd hkey.1 (by simp [Item.kind])
    · refine .inr (.inr ⟨?_, hspoiled.of_rest⟩)
      intro item r' hkind hreads'
      cases item with
      | elements vs' =>
        -- the first element is the one that was read, so it is the rest that cannot be read
        obtain ⟨v'', x'', hv, hnext⟩ := hreads'.elements_inv
        obtain ⟨_, rfl⟩ := hreads.functional hv rfl
        rcases hnext with hend | ⟨y'', vs'', hcomma, hvs⟩
        · rw [hx'] at hend
          cases hend
        · rw [hx'] at hcomma
          obtain ⟨_, rfl⟩ := List.cons.inj hcomma
          exact hun (.elements vs'') r' rfl hvs
      | _ => cases hkind
  · exact (isKey_elim hkey hx (by decide)).elim
  · exact .inr (.inr ⟨unreadable_elements hun, hspoiled⟩)

theorem lockstep_lastElement {x : Text} {v : Json} (ih : Lockstep d s (.value v) x)
    (hx : skip x = .char ']' :: r) : Lockstep d s (.elements [v]) r := by
  intro ws s' h hlight
  rcases ih h hlight with ⟨item', x', used, rest, rfl, hused, hreads, halike, hrest⟩ |
    hkey | ⟨hun, hspoiled⟩
  · obtain ⟨v', rfl⟩ := halike.value_inv
    obtain ⟨r', hx', hr⟩ := hrest.skip_inv hx (by decide)
    exact .inl ⟨_, r', used, rest, rfl, hused, .lastElement hreads hx',
      .element halike (.same _), hr⟩
  · exact (isKey_elim hkey hx (by decide)).elim
  · exact .inr (.inr ⟨unreadable_elements hun, hspoiled⟩)

/-! ### Members -/

/-- What stands behind a key that is known. -/
theorem members_inv_of_spelled {body x : Text} {item : Item} (hb : Spelled body)
    (hkind : item.kind = .members) (h : Reads AnyKeys d (quoted body x) item r) :
    ∃ y v z, skip x = .char ':' :: y ∧ Reads AnyKeys d (skip y) (.value v) z ∧
      (skip z = .char '\x7d' :: r ∨
        ∃ w ms', skip z = .char ',' :: w ∧ Reads AnyKeys d (skip w) (.members ms') r) := by
  cases item with
  | members ms =>
    obtain ⟨body', k, x', y, v, z, heq, hw, hx, hv, hnext⟩ := h.members_inv
    obtain ⟨rfl, rfl⟩ := hb.unique hw.1 (List.cons.inj heq).2
    exact ⟨y, v, z, hx, hv, hnext⟩
  | _ => cases hkind

/-- A quote begins a string. -/
theorem eq_of_reads_quoted {body : Text} {v : Json} (hb : Spelled body)
    (h : Reads AnyKeys d (quoted body s) (.value v) r) : (∃ t, v = .string t) ∧ r = s := by
  -- one way to read it is known, and there is no other
  obtain ⟨t, ht⟩ := hb.writes
  have hstring : Reads AnyKeys d (quoted body s) (.value (.string t)) s := .string ht
  obtain ⟨hv, hr⟩ := hstring.functional h rfl
  exact ⟨⟨t, Item.value.inj hv⟩, hr⟩

/-- A body that is read as a value is spelled. -/
theorem spelled_of_reads_quoted {body : Text} {v : Json} (hb : IsBody body)
    (h : Reads AnyKeys d (quoted body s) (.value v) r) : Spelled body := by
  generalize hx : quoted body s = x at h
  cases h with
  | @string _ body' t _ hw =>
    obtain ⟨rfl, _⟩ := hb.unique hw.1.isBody (List.cons.inj hx).2
    exact hw.1
  | atom ha =>
    rw [← hx] at ha
    exact absurd ha (not_readAtom_cons (by decide))
  | _ => cases hx

/-- Holds of a member, of what stands behind it after the code point that follows it, and of
    what the member has become in the recast text. -/
def MemberInStep (ws : List Rewrite) (d : Nat) (body k : Text) (v : Json) (c : CodePoint)
    (w s' : Text) : Prop :=
  ∃ x' y' v' z' w' used rest, ws = used ++ rest ∧ (∀ w ∈ used, w.Fits) ∧
    s' = quoted body x' ∧ skip x' = .char ':' :: y' ∧ Reads AnyKeys d (skip y') (.value v') z' ∧
    skip z' = c :: w' ∧ AlikeAt commandName k v v' ∧ Recast rest (skip w) (skip w') ∧
    (c = .char '\x7d' → Recast rest w w')

/-- A member whose value is read in lockstep. -/
theorem member_of_plain {body k x y z w x' : Text} {v : Json} {c : CodePoint}
    (hw : Writes body k) (hx : skip x = .char ':' :: y) (ih : Lockstep d (skip y) (.value v) z)
    (hz : skip z = c :: w) (hquote : c ≠ .char '"') (hcolon : c ≠ .char ':')
    (h : Recast ws x x') (hlight : ∀ w ∈ ws, Light w.drop) :
    MemberInStep ws d body k v c w (quoted body x') ∨
      (Unreadable d .members (quoted body x') ∧ Spoiled ws) := by
  obtain ⟨y', hx', hy⟩ := h.skip_inv hx (by decide)
  rcases ih hy.skip hlight with ⟨item', z', used, rest, rfl, hused, hreads, halike, hrest⟩ |
    hkey | ⟨hun, hspoiled⟩
  · obtain ⟨v', rfl⟩ := halike.value_inv
    obtain ⟨w', hz', hw'⟩ := hrest.skip_inv hz hquote
    exact .inl ⟨x', y', v', z', w', used, rest, rfl, hused, rfl, hx', hreads, hz', .inl halike,
      hw'.skip, fun _ => hw'⟩
  · exact (isKey_elim hkey hz hcolon).elim
  · refine .inr ⟨?_, hspoiled⟩
    intro item r hkind hmembers
    obtain ⟨y'', v', z', hx'', hv, _⟩ := members_inv_of_spelled hw.1 hkind hmembers
    rw [hx'] at hx''
    obtain ⟨_, rfl⟩ := List.cons.inj hx''
    exact hun (.value v') z' rfl hv

/-- The members of a recast text that begin with a new text, which has to be one that can be
    read, with a comma and with other members behind it. -/
theorem after_inv {w : Rewrite} {t' : Text} (hkind : item.kind = .members)
    (h : Reads AnyKeys d (w.after t') item r) :
    Spelled w.body' ∧ (skip t').head? = some (.char '"') := by
  rw [w.after_eq] at h
  obtain ⟨y, v, z, hx, hv, hnext⟩ := members_inv_of_spelled writes_commandName.1 hkind h
  rw [skip_cons_of_not_space (by decide)] at hx
  obtain ⟨_, rfl⟩ := List.cons.inj hx
  rw [skip_cons_of_space (by decide), skip_cons_of_not_space (by decide)] at hv
  have hspelled := spelled_of_reads_quoted w.isBody hv
  obtain ⟨_, rfl⟩ := eq_of_reads_quoted hspelled hv
  rw [skip_cons_of_not_space (by decide)] at hnext
  rcases hnext with hend | ⟨y, ms, hcomma, hms⟩
  · cases hend
  · obtain ⟨_, rfl⟩ := List.cons.inj hcomma
    obtain ⟨_, _, _, _, _, _, hquote, _⟩ := hms.members_inv
    rw [hquote]
    exact ⟨hspelled, rfl⟩

/-- A light drop before the end of a member is blank, or it is a comma. -/
theorem drop_cases {drop t w : Text} {c : CodePoint} (hlight : Light drop)
    (hz : skip (drop ++ t) = c :: w) (hc : c = .char ',' ∨ c = .char '\x7d')
    (hnext : c = .char ',' → (skip w).head? = some (.char '"')) :
    (IsBlank drop ∧ skip t = c :: w) ∨ (IsComma drop ∧ c = .char ',' ∧ skip w = skip t) := by
  rcases isBlank_or drop with hblank | ⟨gap, e, drop', rfl, hgap, he⟩
  · rw [skip_append_of_blank hblank] at hz
    exact .inl ⟨hblank, hz⟩
  · obtain ⟨_, hrest⟩ := light_append.mp hlight
    obtain ⟨⟨_, hbrace⟩, hdrop⟩ := light_cons.mp hrest
    rw [List.append_assoc, skip_append_of_blank hgap, List.cons_append,
      skip_cons_of_not_space he] at hz
    obtain ⟨rfl, rfl⟩ := List.cons.inj hz
    obtain rfl := hc.resolve_right hbrace
    rcases isBlank_or drop' with hblank | ⟨gap', f, drop'', rfl, hgap', hf⟩
    · exact .inr ⟨isComma_iff.mpr ⟨gap, drop', rfl, hgap, hblank⟩, rfl,
        skip_append_of_blank hblank t⟩
    · -- a quote would stand in the drop
      have hquote := hnext rfl
      rw [List.append_assoc, skip_append_of_blank hgap', List.cons_append,
        skip_cons_of_not_space hf] at hquote
      obtain ⟨_, hrest'⟩ := light_append.mp hdrop
      exact absurd (Option.some.inj hquote) (light_cons.mp hrest').1.1

/-- A member whose text is rewritten. -/
theorem member_of_command {w₀ : Rewrite} {t t' k y z w : Text} {v : Json} {c : CodePoint}
    (hw : Writes commandName k)
    (hx : skip (.char ':' :: (w₀.pad ++ quoted w₀.body (w₀.drop ++ t))) = .char ':' :: y)
    (hv : Reads AnyKeys d (skip y) (.value v) z) (hz : skip z = c :: w)
    (hc : c = .char ',' ∨ c = .char '\x7d')
    (hnext : c = .char ',' → (skip w).head? = some (.char '"'))
    (h : Recast ws t t') (hlight : Light w₀.drop) :
    MemberInStep (w₀ :: ws) d commandName k v c w (w₀.after t') ∨
      (Unreadable d .members (w₀.after t') ∧ Spoiled (w₀ :: ws)) := by
  have hquote : c ≠ .char '"' := by
    rcases hc with rfl | rfl <;> decide
  rw [skip_cons_of_not_space (by decide)] at hx
  obtain ⟨_, rfl⟩ := List.cons.inj hx
  rw [skip_append_of_blank w₀.isBlank, skip_cons_of_not_space (by decide)] at hv
  obtain ⟨⟨text, rfl⟩, rfl⟩ := eq_of_reads_quoted w₀.spelled hv
  -- the drop decides whether the two texts are in step behind the member
  rcases drop_cases hlight hz hc hnext with ⟨hblank, ht⟩ | ⟨hcomma, rfl, hskip⟩
  · refine .inr ⟨?_, w₀, List.mem_cons_self, fun hfits => not_isComma_of_blank hblank hfits.1⟩
    -- the new comma stands where the old text had one, or before the end
    intro item r hkind hmembers
    obtain ⟨w', hw', _⟩ := h.skip_inv ht hquote
    have hhead := (after_inv hkind hmembers).2
    rw [hw'] at hhead
    exact hquote (Option.some.inj hhead)
  · by_cases hspelled : Spelled w₀.body'
    · obtain ⟨text', hw'⟩ := hspelled.writes
      refine .inl ⟨.char ':' :: .char ' ' :: quoted w₀.body' (.char ',' :: t'),
        .char ' ' :: quoted w₀.body' (.char ',' :: t'), .string text', .char ',' :: t', t', [w₀],
        ws, rfl, ?_, rfl, skip_cons_of_not_space (by decide) _, ?_,
        skip_cons_of_not_space (by decide) _, ?_, ?_, ?_⟩
      · intro w hw
        obtain rfl := List.mem_singleton.mp hw
        exact ⟨hcomma, hspelled⟩
      · rw [skip_cons_of_space (by decide), skip_cons_of_not_space (by decide)]
        exact .string hw'
      · exact .inr ⟨eq_of_writes_commandName hw, text, text', rfl, rfl⟩
      · rw [hskip]
        exact h.skip
      · intro hbrace
        cases hbrace
    · refine .inr ⟨?_, w₀, List.mem_cons_self, fun hfits => hspelled hfits.2⟩
      intro item r hkind hmembers
      exact hspelled (after_inv hkind hmembers).1

/-- A member up to the code point that follows it. -/
theorem member_cases {body k x y z w : Text} {v : Json} {c : CodePoint} (hw : Writes body k)
    (hx : skip x = .char ':' :: y) (hv : Reads AnyKeys d (skip y) (.value v) z)
    (ih : Lockstep d (skip y) (.value v) z) (hz : skip z = c :: w)
    (hc : c = .char ',' ∨ c = .char '\x7d')
    (hnext : c = .char ',' → (skip w).head? = some (.char '"'))
    (h : Recast ws (quoted body x) s') (hlight : ∀ w ∈ ws, Light w.drop) :
    MemberInStep ws d body k v c w s' ∨ (Unreadable d .members s' ∧ Spoiled ws) := by
  rcases h.quoted_inv hw.1 with ⟨x', rfl, hx'⟩ | ⟨w₀, ws', t, t', rfl, rfl, rfl, rfl, ht⟩
  · have hquote : c ≠ .char '"' := by
      rcases hc with rfl | rfl <;> decide
    have hcolon : c ≠ .char ':' := by
      rcases hc with rfl | rfl <;> decide
    exact member_of_plain hw hx ih hz hquote hcolon hx' hlight
  · exact member_of_command hw hx hv hz hc hnext ht (hlight w₀ List.mem_cons_self)

theorem lockstep_lastMember {body k x y z : Text} {v : Json} (hw : Writes body k)
    (hx : skip x = .char ':' :: y) (hv : Reads AnyKeys d (skip y) (.value v) z)
    (ih : Lockstep d (skip y) (.value v) z) (hz : skip z = .char '\x7d' :: r) :
    Lockstep d (quoted body x) (.members [(k, v)]) r := by
  intro ws s' h hlight
  have hnext : CodePoint.char '\x7d' = .char ',' → (skip r).head? = some (.char '"') := by
    intro hbrace
    cases hbrace
  rcases member_cases hw hx hv ih hz (.inr rfl) hnext h hlight with
    ⟨x', y', v', z', w', used, rest, rfl, hused, rfl, hx', hv', hz', halike, _, hrest⟩ | hun
  · exact .inl ⟨_, w', used, rest, rfl, hused, .lastMember hw hx' hv' hz',
      .cons halike (.same _), hrest rfl⟩
  · exact .inr (.inr hun)

theorem lockstep_member {body k x y z w : Text} {v : Json} {ms : List (Text × Json)}
    (hw : Writes body k) (hx : skip x = .char ':' :: y)
    (hv : Reads AnyKeys d (skip y) (.value v) z) (ih₁ : Lockstep d (skip y) (.value v) z)
    (hz : skip z = .char ',' :: w) (hms : Reads AnyKeys d (skip w) (.members ms) r)
    (ih₂ : Lockstep d (skip w) (.members ms) r) :
    Lockstep d (quoted body x) (.members ((k, v) :: ms)) r := by
  intro ws s' h hlight
  have hnext : CodePoint.char ',' = .char ',' → (skip w).head? = some (.char '"') := by
    intro _
    obtain ⟨_, _, _, _, _, _, hquote, _⟩ := hms.members_inv
    rw [hquote]
    rfl
  rcases member_cases hw hx hv ih₁ hz (.inl rfl) hnext h hlight with
    ⟨x', y', v', z', w', used, rest, rfl, hused, rfl, hx', hv', hz', halike, hrest, _⟩ | hun
  · rcases ih₂ hrest fun w hw => hlight w (List.mem_append_right _ hw) with
      ⟨item', r', used', rest', rfl, hused', hreads', halike', hrest'⟩ | hkey | ⟨hun, hspoiled⟩
    · obtain ⟨ms', rfl⟩ := halike'.members_inv
      refine .inl ⟨_, r', used ++ used', rest', by simp, ?_, .member hw hx' hv' hz' hreads',
        .cons halike halike', hrest'⟩
      exact List.forall_mem_append.mpr ⟨hused, hused'⟩
    · exact absurd hkey.1 (by simp [Item.kind])
    · refine .inr (.inr ⟨?_, hspoiled.of_rest⟩)
      intro item r' hkind hmembers
      -- the first member is the one that was read, so it is the rest that cannot be read
      obtain ⟨y'', v'', z'', hx'', hv'', hnext'⟩ := members_inv_of_spelled hw.1 hkind hmembers
      rw [hx'] at hx''
      obtain ⟨_, rfl⟩ := List.cons.inj hx''
      obtain ⟨_, rfl⟩ := hv'.functional hv'' rfl
      rcases hnext' with hend | ⟨w'', ms'', hcomma, hms''⟩
      · rw [hz'] at hend
        cases hend
      · rw [hz'] at hcomma
        obtain ⟨_, rfl⟩ := List.cons.inj hcomma
        exact hun (.members ms'') r' rfl hms''
  · exact .inr (.inr hun)

/-! ### Documents -/

/-- **An item is followed in every recast form of its text.** -/
theorem lockstep_of_reads (h : Reads AnyKeys d s item r) : Lockstep d s item r := by
  induction h with
  | string hw => exact lockstep_string hw
  | atom ha => exact lockstep_atom ha
  | @emptyArray d x r hx =>
    intro ws s' h _
    obtain ⟨x', rfl, hx'⟩ := h.cons_inv (by decide)
    obtain ⟨r', hr', hrest⟩ := hx'.skip_inv hx (by decide)
    exact .inl ⟨_, r', [], ws, rfl, by simp, .emptyArray hr', .same _, hrest⟩
  | array hvs ih => exact lockstep_array hvs ih
  | @emptyObject d x r hx =>
    intro ws s' h _
    obtain ⟨x', rfl, hx'⟩ := h.cons_inv (by decide)
    obtain ⟨r', hr', hrest⟩ := hx'.skip_inv hx (by decide)
    exact .inl ⟨_, r', [], ws, rfl, by simp, .emptyObject hr', .same _, hrest⟩
  | object _ hms ih => exact lockstep_object hms ih
  | lastElement _ hx ih => exact lockstep_lastElement ih hx
  | element _ hx _ ih₁ ih₂ => exact lockstep_element ih₁ hx ih₂
  | lastMember hw hx hv hz ih => exact lockstep_lastMember hw hx hv ih hz
  | member hw hx hv hz hms ih₁ ih₂ => exact lockstep_member hw hx hv ih₁ hz hms ih₂

/-- **A recast document.**  If all rewrites fit it is read as a value that is alike, and if
    some light one does not it is no document. -/
theorem document_recast {v : Json} (h : Document AnyKeys s v) (hrecast : Recast ws s s')
    (hlight : ∀ w ∈ ws, Light w.drop) :
    ((∀ w ∈ ws, w.Fits) ∧
        ∃ v', Document AnyKeys s' v' ∧ Alike commandName (.value v) (.value v')) ∨
      ((∀ v', ¬ Document AnyKeys s' v') ∧ Spoiled ws) := by
  obtain ⟨hhead, r, hreads, hr⟩ := h
  rcases lockstep_of_reads hreads hrecast.skip hlight with
    ⟨item', r', used, rest, rfl, hused, hreads', halike, hrest⟩ | hkey | ⟨hun, hspoiled⟩
  · obtain ⟨v', rfl⟩ := halike.value_inv
    -- nothing is left, so no rewrite is left either
    have hend := hrest.skip
    rw [hr] at hend
    obtain ⟨rfl, hr'⟩ := hend.nil_inv
    refine .inl ⟨by simpa using hused, v', ⟨?_, r', hreads', hr'⟩, halike⟩
    rwa [hrecast.head?_eq]
  · obtain ⟨_, t, ht⟩ := hkey
    rw [hr] at ht
    cases ht
  · refine .inr ⟨?_, hspoiled⟩
    rintro v' ⟨_, r', hreads', _⟩
    exact hun (.value v') r' rfl hreads'

end Database

end ClangDb
