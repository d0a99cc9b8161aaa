import ClangDb.Proofs.Json.Escape
import ClangDb.Proofs.Json.Grammar
import ClangDb.Proofs.Json.Numeral
import ClangDb.Proofs.Json.Weight

/-! # Documents are read back

    A document that is written, on one line or with one member a line, is read
    as the value that was written.  This asks of the value what the reader asks
    of a document: no integer with too many digits, no containers nested too
    deeply, distinct keys; and of its strings that no two halves of a surrogate
    pair stand side by side.

    Key theorems:
    - `Lasts.readsWritten`: what is written of a value at any level is read,
    - `Lasts.allPlain`: a document is ASCII text,
    - `read_write`: documents are read back.
-/

namespace ClangDb

namespace Json

open Number (isAsciiDigit)

/-- Holds of a value, nested in no more than so many containers, that comes back as it was
    written. -/
inductive Lasts : (depth : Nat) → Json → Prop where
  | null {d : Nat} : Lasts d .null
  | bool {d : Nat} {b : Bool} : Lasts d (.bool b)
  | int {d : Nat} {k : Int} : (Text.ofNat k.natAbs).length ≤ Number.digitLimit → Lasts d (.int k)
  | number {d : Nat} {x : Binary64} : IsPrinted x → Lasts d (.number x)
  | string {d : Nat} {s : Text} : Unpaired s → Lasts d (.string s)
  | array {d : Nat} {vs : List Json} : (∀ v ∈ vs, Lasts d v) → Lasts (d + 1) (.array vs)
  | object {d : Nat} {ms : List (Text × Json)} : (ms.map Prod.fst).Nodup →
      (∀ m ∈ ms, Unpaired m.1) → (∀ m ∈ ms, Lasts d m.2) → Lasts (d + 1) (.object ms)

variable {d : Nat} {f : Format} {v : Json} {r s : Text}

/-! ### Blanks -/

theorem skip_append_blanks {blanks : Text} (h : ∀ c ∈ blanks, isSpace c = true) (s : Text) :
    skip (blanks ++ s) = skip s := by
  induction blanks with
  | nil => rfl
  | cons c blanks ih =>
    rw [List.cons_append, skip_cons_of_space (h c List.mem_cons_self),
      ih fun b hb => h b (List.mem_cons_of_mem _ hb)]

theorem isSpace_newline (f : Format) (level : Nat) : ∀ c ∈ f.newline level, isSpace c = true := by
  intro c hc
  cases f with
  | oneLine => cases hc
  | indented spaces =>
    rcases List.mem_cons.mp hc with rfl | hc
    · decide
    · rw [List.eq_of_mem_replicate hc]
      decide

/-- A separator is a comma and blanks. -/
theorem separator_eq (f : Format) (level : Nat) : ∃ blanks, f.separator level = .char ',' :: blanks ∧
    ∀ c ∈ blanks, isSpace c = true := by
  cases f with
  | oneLine =>
    refine ⟨[.char ' '], rfl, fun c hc => ?_⟩
    rw [List.mem_singleton.mp hc]
    decide
  | indented spaces => exact ⟨_, rfl, isSpace_newline (.indented spaces) level⟩

/-- Holds of what follows a value: nothing, a blank, a comma or the end of a container. -/
def EndsValue (r : Text) : Prop :=
  ∀ c ∈ r.head?, isSpace c = true ∨ c = .char ',' ∨ c = .char ']' ∨ c = .char '\x7d'

theorem EndsValue.endsNumeral (h : EndsValue r) : EndsNumeral r := by
  intro c hc
  rcases h c hc with h | rfl | rfl | rfl
  · simp only [isSpace, Bool.or_eq_true, decide_eq_true_eq] at h
    rcases h with ((rfl | rfl) | rfl) | rfl
    all_goals decide
  all_goals decide

theorem endsValue_newline (level : Nat) {c : CodePoint} (hc : c = .char ']' ∨ c = .char '\x7d') :
    EndsValue (f.newline level ++ c :: r) := by
  intro b hb
  cases f with
  | oneLine =>
    obtain rfl := Option.some.inj hb
    rcases hc with rfl | rfl
    · exact .inr (.inr (.inl rfl))
    · exact .inr (.inr (.inr rfl))
  | indented spaces =>
    obtain rfl := Option.some.inj hb
    exact .inl (by decide)

/-- Holds of a text with a character first that is no blank. -/
def Begins (s : Text) : Prop := ∃ c t, s = c :: t ∧ isSpace c = false

theorem Begins.skip_eq (h : Begins s) : skip s = s := by
  obtain ⟨c, t, rfl, hc⟩ := h
  exact skip_cons_of_not_space hc t

theorem Begins.append (h : Begins s) (r : Text) : Begins (s ++ r) := by
  obtain ⟨c, t, rfl, hc⟩ := h
  exact ⟨c, t ++ r, rfl, hc⟩

theorem begins_writeString (s : Text) : Begins (writeString s) :=
  ⟨.char '"', _, rfl, by decide⟩

theorem begins_numeral (n : Numeral) : Begins n.toText := by
  obtain ⟨c, t, ht, hc⟩ := n.magnitude_cons
  have hspace : isSpace c = false := by
    have hne : ∀ x, isAsciiDigit (.char x) = false → c ≠ .char x := fun x hx =>
      ne_of_isAsciiDigit hc hx
    simp [isSpace, hne ' ' (by decide), hne '\t' (by decide), hne '\n' (by decide),
      hne '\r' (by decide)]
  rw [Numeral.toText, ht]
  cases n.negative with
  | true => exact ⟨.char '-', _, rfl, by decide⟩
  | false => exact ⟨c, t, rfl, hspace⟩

theorem begins_number {x : Binary64} (hx : IsPrinted x) : Begins (numberLayout.number x) := by
  cases x with
  | nan => exact ⟨.char 'N', _, rfl, by decide⟩
  | infinite negative =>
    cases negative with
    | true => exact ⟨.char '-', _, rfl, by decide⟩
    | false => exact ⟨.char 'I', _, rfl, by decide⟩
  | finite negative m q =>
    obtain ⟨n, htext, _⟩ := exists_numeral_number hx.1
    rw [← htext]
    exact begins_numeral n

theorem begins_writeAt (level : Nat) (h : Lasts d v) : Begins (writeAt f level v) := by
  cases h with
  | null => exact ⟨.char 'n', _, rfl, by decide⟩
  | @bool _ b =>
    cases b with
    | true => exact ⟨.char 't', _, rfl, by decide⟩
    | false => exact ⟨.char 'f', _, rfl, by decide⟩
  | int _ =>
    rw [writeAt, ← Numeral.toText_ofInt]
    exact begins_numeral _
  | number hx => exact begins_number hx
  | string _ => exact begins_writeString _
  | @array _ vs _ => cases vs <;> exact ⟨.char '[', _, rfl, by decide⟩
  | @object _ ms _ _ _ => cases ms <;> exact ⟨.char '\x7b', _, rfl, by decide⟩

/-! ### Values -/

/-- A value stands at the head of what is written of it, at any level. -/
def ReadsWritten (f : Format) (d : Nat) (v : Json) : Prop :=
  ∀ level r, EndsValue r → Reads AnyKeys d (writeAt f level v ++ r) (.value v) r

/-- Holds of what follows the last item of a container: blanks and the closing bracket. -/
structure Closes (tail : Text) (bracket : CodePoint) (r : Text) : Prop where
  ends : EndsValue tail
  skip_eq : skip tail = bracket :: r

theorem closes_newline (f : Format) (level : Nat) {c : CodePoint}
    (hc : c = .char ']' ∨ c = .char '\x7d') (r : Text) :
    Closes (f.newline level ++ c :: r) c r := by
  have hspace : isSpace c = false := by rcases hc with rfl | rfl <;> decide
  refine ⟨endsValue_newline level hc, ?_⟩
  rw [skip_append_blanks (isSpace_newline f level)]
  exact skip_cons_of_not_space hspace r

/-- What stands between two items is a comma, and the second begins after it. -/
theorem endsValue_separator (f : Format) (level : Nat) (hs : Begins s) :
    EndsValue (f.separator level ++ s) ∧
      ∃ y, skip (f.separator level ++ s) = .char ',' :: y ∧ skip y = s := by
  obtain ⟨blanks, hseparator, hblanks⟩ := separator_eq f level
  rw [hseparator]
  refine ⟨?_, blanks ++ s, skip_cons_of_not_space (by decide) _, ?_⟩
  · intro c hc
    obtain rfl := Option.some.inj hc
    exact .inr (.inl rfl)
  · rw [skip_append_blanks hblanks, hs.skip_eq]

/-- Elements that are read one by one are read together. -/
theorem reads_writeElements {vs : List Json} (hvs : vs ≠ [])
    (hread : ∀ v ∈ vs, ReadsWritten f d v ∧ ∀ level, Begins (writeAt f level v)) (level : Nat)
    {tail : Text} (htail : Closes tail (.char ']') r) :
    Begins (writeElements f level vs) ∧
      Reads AnyKeys d (writeElements f level vs ++ tail) (.elements vs) r := by
  induction vs with
  | nil => exact absurd rfl hvs
  | cons v vs ih =>
    obtain ⟨hv, hbegins⟩ := hread v List.mem_cons_self
    cases vs with
    | nil => exact ⟨hbegins level, .lastElement (hv level _ htail.ends) htail.skip_eq⟩
    | cons w vs =>
      obtain ⟨hmoreBegins, hmore⟩ := ih (by simp) fun u hu => hread u (List.mem_cons_of_mem _ hu)
      -- the element ends where the separator begins
      obtain ⟨hends, y, hcomma, hy⟩ := endsValue_separator f level (hmoreBegins.append tail)
      refine ⟨((hbegins level).append _).append _, ?_⟩
      show Reads AnyKeys d (writeAt f level v ++ f.separator level ++
        writeElements f level (w :: vs) ++ tail) _ r
      rw [List.append_assoc, List.append_assoc]
      exact .element (hv level _ hends) hcomma (hy ▸ hmore)

/-- Members are read together, each of them with its key. -/
theorem reads_writeMembers {ms : List (Text × Json)} (hms : ms ≠ [])
    (hkeys : ∀ m ∈ ms, Unpaired m.1)
    (hread : ∀ m ∈ ms, ReadsWritten f d m.2 ∧ ∀ level, Begins (writeAt f level m.2)) (level : Nat)
    {tail : Text} (htail : Closes tail (.char '\x7d') r) :
    Begins (writeMembers f level ms) ∧
      Reads AnyKeys d (writeMembers f level ms ++ tail) (.members ms) r := by
  -- a key, the colon and the blank after it
  have hcolon : ∀ (k s : Text), Begins s → writeString k ++ ": " ++ s =
      .char '"' :: (escaped k ++ .char '"' :: (.char ':' :: .char ' ' :: s)) ∧
        skip (.char ':' :: .char ' ' :: s) = .char ':' :: .char ' ' :: s ∧
        skip (.char ' ' :: s) = s := by
    intro k s hs
    refine ⟨?_, skip_cons_of_not_space (by decide) _, ?_⟩
    · rw [List.append_assoc, writeString_eq]
      rfl
    · rw [skip_cons_of_space (by decide), hs.skip_eq]
  induction ms with
  | nil => exact absurd rfl hms
  | cons m ms ih =>
    obtain ⟨k, v⟩ := m
    obtain ⟨hv, hbegins⟩ := hread (k, v) List.mem_cons_self
    have hk := writes_escaped (hkeys (k, v) List.mem_cons_self)
    cases ms with
    | nil =>
      obtain ⟨htext, hskip, hvalue⟩ := hcolon k _ ((hbegins level).append tail)
      refine ⟨((begins_writeString k).append _).append _, ?_⟩
      show Reads AnyKeys d (writeString k ++ ": " ++ writeAt f level v ++ tail) _ r
      rw [List.append_assoc, htext]
      refine .lastMember hk hskip ?_ htail.skip_eq
      rw [hvalue]
      exact hv level _ htail.ends
    | cons m ms =>
      obtain ⟨hmoreBegins, hmore⟩ := ih (by simp)
        (fun u hu => hkeys u (List.mem_cons_of_mem _ hu))
        (fun u hu => hread u (List.mem_cons_of_mem _ hu))
      obtain ⟨hends, y, hcomma, hy⟩ := endsValue_separator f level (hmoreBegins.append tail)
      obtain ⟨htext, hskip, hvalue⟩ := hcolon k _ ((hbegins level).append _)
      refine ⟨((((begins_writeString k).append _).append _).append _).append _, ?_⟩
      show Reads AnyKeys d (writeString k ++ ": " ++ writeAt f level v ++ f.separator level ++
        writeMembers f level (m :: ms) ++ tail) _ r
      rw [List.append_assoc, List.append_assoc, List.append_assoc, htext]
      refine .member hk hskip ?_ hcomma (hy ▸ hmore)
      rw [hvalue]
      exact hv level _ hends

/-- **What is written of a value at any level is read as the value.** -/
theorem Lasts.readsWritten (f : Format) (h : Lasts d v) : ReadsWritten f d v := by
  induction h with
  | null => exact fun level r _ => .atom rfl
  | @bool _ b =>
    intro level r _
    cases b <;> exact .atom rfl
  | int hk => exact fun level r hr => .atom (readAtom_int hk hr.endsNumeral)
  | number hx => exact fun level r hr => .atom (readAtom_number hx hr.endsNumeral)
  | string hs =>
    intro level r _
    rw [writeAt, writeString_eq]
    exact .string (writes_escaped hs)
  | @array d vs hvs ih =>
    intro level r _
    cases vs with
    | nil => exact .emptyArray (skip_cons_of_not_space (by decide) r)
    | cons v vs =>
      obtain ⟨hbegins, hreads⟩ := reads_writeElements (List.cons_ne_nil v vs)
        (fun u hu => ⟨ih u hu, fun level => begins_writeAt level (hvs u hu)⟩) (level + 1)
        (closes_newline f level (.inl rfl) r)
      have htext : writeAt f level (.array (v :: vs)) ++ r = .char '[' :: (f.newline (level + 1) ++
          (writeElements f (level + 1) (v :: vs) ++ (f.newline level ++ .char ']' :: r))) := by
        simp [writeAt, Text.ofString]
      rw [htext]
      refine .array ?_
      rw [skip_append_blanks (isSpace_newline f _), (hbegins.append _).skip_eq]
      exact hreads
  | @object d ms hnodup hkeys hms ih =>
    intro level r _
    cases ms with
    | nil => exact .emptyObject (skip_cons_of_not_space (by decide) r)
    | cons m ms =>
      obtain ⟨hbegins, hreads⟩ := reads_writeMembers (List.cons_ne_nil m ms) hkeys
        (fun u hu => ⟨ih u hu, fun level => begins_writeAt level (hms u hu)⟩) (level + 1)
        (closes_newline f level (.inr rfl) r)
      have htext : writeAt f level (.object (m :: ms)) ++ r = .char '\x7b' ::
          (f.newline (level + 1) ++ (writeMembers f (level + 1) (m :: ms) ++
            (f.newline level ++ .char '\x7d' :: r))) := by
        simp [writeAt, Text.ofString]
      rw [← (hbegins.append _).skip_eq, ← skip_append_blanks (isSpace_newline f (level + 1))] at hreads
      -- distinct keys are collected as they stand
      have hobject := Reads.object trivial hreads
      rw [collect_of_nodup hnodup] at hobject
      rw [htext]
      exact hobject

/-! ### The characters of a document -/

/-- Holds of the characters that documents are written in. -/
def IsPlain (c : CodePoint) : Prop := IsVisible c ∨ c = .char '\n'

/-- Holds of a text of plain characters. -/
def AllPlain (s : Text) : Prop := ∀ c ∈ s, IsPlain c

instance : DecidablePred IsPlain := fun c =>
  inferInstanceAs (Decidable ((0x20 ≤ c.toNat ∧ c.toNat ≤ 0x7e) ∨ c = .char '\n'))

instance : DecidablePred AllPlain := fun s => inferInstanceAs (Decidable (∀ c ∈ s, IsPlain c))

theorem AllPlain.append {t : Text} (hs : AllPlain s) (ht : AllPlain t) : AllPlain (s ++ t) := by
  intro c hc
  rcases List.mem_append.mp hc with hc | hc
  · exact hs c hc
  · exact ht c hc

theorem allPlain_writeString (s : Text) : AllPlain (writeString s) :=
  fun c hc => .inl (isVisible_writeString s c hc)

theorem IsNumeric.isVisible {c : CodePoint} (h : IsNumeric c) : IsVisible c := by
  rcases h with h | rfl | rfl | rfl | rfl
  · have hbounds := isAsciiDigit_iff.mp h
    exact ⟨by omega, by omega⟩
  all_goals exact ⟨by decide, by decide⟩

theorem allPlain_numeral (n : Numeral) : AllPlain n.toText :=
  fun c hc => .inl (n.isNumeric c hc).isVisible

theorem allPlain_number {x : Binary64} (hx : IsPrinted x) : AllPlain (numberLayout.number x) := by
  have hwords : ∀ word : Text, word = "NaN" ∨ word = "Infinity" ∨ word = "-Infinity" →
      AllPlain word := by
    rintro _ (rfl | rfl | rfl) <;> decide
  cases x with
  | nan => exact hwords _ (.inl rfl)
  | infinite negative =>
    cases negative with
    | false => exact hwords _ (.inr (.inl rfl))
    | true => exact hwords _ (.inr (.inr rfl))
  | finite negative m q =>
    obtain ⟨n, htext, _⟩ := exists_numeral_number hx.1
    rw [← htext]
    exact allPlain_numeral n

theorem allPlain_newline (f : Format) (level : Nat) : AllPlain (f.newline level) := by
  intro c hc
  cases f with
  | oneLine => cases hc
  | indented spaces =>
    rcases List.mem_cons.mp hc with rfl | hc
    · exact .inr rfl
    · rw [List.eq_of_mem_replicate hc]
      exact .inl ⟨by decide, by decide⟩

theorem allPlain_separator (f : Format) (level : Nat) : AllPlain (f.separator level) := by
  have hcomma : IsPlain (.char ',') := .inl ⟨by decide, by decide⟩
  intro c hc
  cases f with
  | oneLine =>
    rcases List.mem_cons.mp hc with rfl | hc
    · exact hcomma
    · rw [List.mem_singleton.mp hc]
      exact .inl ⟨by decide, by decide⟩
  | indented spaces =>
    rcases List.mem_cons.mp hc with rfl | hc
    · exact hcomma
    · exact allPlain_newline (.indented spaces) level c hc

theorem allPlain_writeElements {vs : List Json} (level : Nat)
    (h : ∀ v ∈ vs, AllPlain (writeAt f level v)) : AllPlain (writeElements f level vs) := by
  induction vs with
  | nil =>
    intro c hc
    cases hc
  | cons v vs ih =>
    have hv := h v List.mem_cons_self
    cases vs with
    | nil => exact hv
    | cons w vs =>
      exact (hv.append (allPlain_separator f level)).append
        (ih fun u hu => h u (List.mem_cons_of_mem _ hu))

theorem allPlain_writeMembers {ms : List (Text × Json)} (level : Nat)
    (h : ∀ m ∈ ms, AllPlain (writeAt f level m.2)) : AllPlain (writeMembers f level ms) := by
  have hcolon : AllPlain (": " : Text) := by decide
  induction ms with
  | nil =>
    intro c hc
    cases hc
  | cons m ms ih =>
    obtain ⟨k, v⟩ := m
    have hv := ((allPlain_writeString k).append hcolon).append (h (k, v) List.mem_cons_self)
    cases ms with
    | nil => exact hv
    | cons m ms =>
      exact (hv.append (allPlain_separator f level)).append
        (ih fun u hu => h u (List.mem_cons_of_mem _ hu))

/-- A value is written in plain characters. -/
theorem Lasts.allPlain (f : Format) (level : Nat) (h : Lasts d v) : AllPlain (writeAt f level v) := by
  have hone : ∀ c : Char, 0x20 ≤ c.toNat ∧ c.toNat ≤ 0x7e → AllPlain [.char c] := by
    intro c hc b hb
    rw [List.mem_singleton.mp hb]
    exact .inl hc
  induction h generalizing level with
  | null =>
    show AllPlain ("null" : Text)
    decide
  | @bool _ b =>
    cases b with
    | true =>
      show AllPlain ("true" : Text)
      decide
    | false =>
      show AllPlain ("false" : Text)
      decide
  | int _ =>
    rw [writeAt, ← Numeral.toText_ofInt]
    exact allPlain_numeral _
  | number hx => exact allPlain_number hx
  | string _ => exact allPlain_writeString _
  | @array d vs _ ih =>
    cases vs with
    | nil => exact (hone '[' (by decide)).append (hone ']' (by decide))
    | cons v vs =>
      exact ((((hone '[' (by decide)).append (allPlain_newline f _)).append
        (allPlain_writeElements _ fun u hu => ih u hu _)).append (allPlain_newline f _)).append
          (hone ']' (by decide))
  | @object d ms _ _ _ ih =>
    cases ms with
    | nil => exact (hone '\x7b' (by decide)).append (hone '\x7d' (by decide))
    | cons m ms =>
      exact ((((hone '\x7b' (by decide)).append (allPlain_newline f _)).append
        (allPlain_writeMembers _ fun u hu => ih u hu _)).append (allPlain_newline f _)).append
          (hone '\x7d' (by decide))

/-! ### Documents -/

/-- **A document that is written is read as the value that was written**, whatever blanks
    follow it. -/
theorem read_write (f : Format) (h : Lasts depthLimit v) {blanks : Text}
    (hblanks : ∀ c ∈ blanks, isSpace c = true) : read (v.write f ++ blanks) = .ok v := by
  have hbegins : Begins (v.write f) := begins_writeAt 0 h
  have hends : EndsValue blanks := by
    intro c hc
    exact .inl (hblanks c (List.mem_of_mem_head? hc))
  refine read_eq_ok_iff.mpr ⟨?_, blanks, ?_, ?_⟩
  · -- a document begins with a plain character
    obtain ⟨c, t, heq, _⟩ := hbegins
    have hplain := h.allPlain f 0 c (by rw [← write, heq]; exact List.mem_cons_self)
    rw [heq]
    intro hmark
    rw [List.cons_append, List.head?_cons] at hmark
    rw [Option.some.inj hmark] at hplain
    rcases hplain with ⟨_, hle⟩ | hnewline
    · exact absurd hle (by decide)
    · exact absurd hnewline (by decide)
  · rw [(hbegins.append blanks).skip_eq]
    exact h.readsWritten f 0 blanks hends
  · rw [← List.append_nil blanks, skip_append_blanks hblanks]
    rfl

/-- Members with fixed keys come back if the keys are distinct. -/
theorem lasts_ofFields {fields : List (String × Json)}
    (hkeys : (fields.map fun field => Text.ofString field.1).Nodup)
    (h : ∀ field ∈ fields, Lasts d field.2) : Lasts (d + 1) (ofFields fields) := by
  refine .object ?_ ?_ ?_
  · rwa [List.map_map]
  · intro m hm
    obtain ⟨field, _, rfl⟩ := List.mem_map.mp hm
    exact unpaired_ofString field.1
  · intro m hm
    obtain ⟨field, hfield, rfl⟩ := List.mem_map.mp hm
    exact h field hfield

end Json

end ClangDb
