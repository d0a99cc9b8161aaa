import ClangDb.Proofs.Text.Occurrence
import ClangDb.Text.Lines

/-! # Cutting into lines

    A file is cut after each line feed, each carriage return and each pair of
    the two, whether it is taken as bytes or as text, so the cut is defined here
    over any alphabet.  `AreLines` says what a list of lines looks like; the cut
    gives the only such list whose lines join to the whole.

    Key theorems:
    - `areLines_cut`, `cut_flatten`: the cut is characterised by `AreLines`,
    - `AreLines.congr`: lines stay lines when their contents are replaced,
    - `cut_flatMap`: cutting commutes with writing each code point as several.
-/

namespace ClangDb

namespace Lines

/-- The lines of a list with their endings. -/
def cut {α : Type} [DecidableEq α] (lf cr : α) : List α → List (List α)
  | [] => []
  | c :: r =>
    if c = lf ∨ (c = cr ∧ r.head? ≠ some lf) then [c] :: cut lf cr r
    else match cut lf cr r with
      | [] => [[c]]
      | line :: more => (c :: line) :: more

/-- The line feeds and carriage returns at the end of a line. -/
def ending {α : Type} [DecidableEq α] (lf cr : α) (line : List α) : List α :=
  (line.reverse.takeWhile fun c => c = cr || c = lf).reverse

variable {α β : Type}

/-- Holds of a list with no line feed and no carriage return. -/
def Unbroken (lf cr : α) (l : List α) : Prop := lf ∉ l ∧ cr ∉ l

/-- What ends a line. -/
inductive IsEnding (lf cr : α) : List α → Prop where
  | feed : IsEnding lf cr [lf]
  | return : IsEnding lf cr [cr]
  | both : IsEnding lf cr [cr, lf]

/-- Holds of lines that the cut can give: only the last may be without ending,
    and no carriage return ends a line when the next one begins with a feed. -/
inductive AreLines (lf cr : α) : List (List α) → Prop where
  | nil : AreLines lf cr []
  | last {l : List α} : l ≠ [] → Unbroken lf cr l → AreLines lf cr [l]
  | cons {l e : List α} {more : List (List α)} : Unbroken lf cr l → IsEnding lf cr e →
      (e = [cr] → more.flatten.head? ≠ some lf) → AreLines lf cr more →
      AreLines lf cr ((l ++ e) :: more)

variable {lf cr : α} {lf' cr' : β}

/-! ### Endings -/

theorem IsEnding.ne_nil {e : List α} (h : IsEnding lf cr e) : e ≠ [] := by
  cases h <;> simp

theorem unbroken_nil : Unbroken lf cr ([] : List α) := ⟨by simp, by simp⟩

theorem unbroken_cons {c : α} {l : List α} :
    Unbroken lf cr (c :: l) ↔ (c ≠ lf ∧ c ≠ cr) ∧ Unbroken lf cr l := by
  simp only [Unbroken, List.mem_cons, not_or]
  constructor
  · rintro ⟨⟨h₁, h₂⟩, h₃, h₄⟩
    exact ⟨⟨Ne.symm h₁, Ne.symm h₃⟩, h₂, h₄⟩
  · rintro ⟨⟨h₁, h₂⟩, h₃, h₄⟩
    exact ⟨⟨Ne.symm h₁, h₃⟩, Ne.symm h₂, h₄⟩

theorem Unbroken.append {l m : List α} (hl : Unbroken lf cr l) (hm : Unbroken lf cr m) :
    Unbroken lf cr (l ++ m) := by
  refine ⟨fun h => ?_, fun h => ?_⟩
  · exact (List.mem_append.mp h).elim hl.1 hm.1
  · exact (List.mem_append.mp h).elim hl.2 hm.2

variable [DecidableEq α]

/-- The last code point of an unbroken list belongs to no ending. -/
theorem Unbroken.takeWhile_reverse {l : List α} (h : Unbroken lf cr l) :
    (l.reverse.takeWhile fun c => c = cr || c = lf) = [] := by
  cases hl : l.reverse with
  | nil => rfl
  | cons c r =>
    have hc : c ∈ l := List.mem_reverse.mp (hl ▸ List.mem_cons_self)
    have hlf : c ≠ lf := fun he => h.1 (he ▸ hc)
    have hcr : c ≠ cr := fun he => h.2 (he ▸ hc)
    simp [hlf, hcr]

theorem ending_of_unbroken {l : List α} (h : Unbroken lf cr l) : ending lf cr l = [] := by
  rw [ending, h.takeWhile_reverse]
  rfl

/-- The ending of a line is what stands after its content. -/
theorem ending_append {l e : List α} (h : Unbroken lf cr l) (he : IsEnding lf cr e) :
    ending lf cr (l ++ e) = e := by
  cases he <;> simp [ending, h.takeWhile_reverse]

/-! ### The cut gives lines -/

theorem flatten_cut (s : List α) : (cut lf cr s).flatten = s := by
  induction s with
  | nil => rfl
  | cons c r ih =>
    simp only [cut]
    split
    · simp [ih]
    · cases h : cut lf cr r with
      | nil => simpa [h] using ih
      | cons line more => simpa [h] using ih

omit [DecidableEq α] in
/-- Putting a code point before lines extends the first one. -/
theorem AreLines.extend {c : α} {line : List α} {more : List (List α)} (hne : c ≠ lf)
    (h : AreLines lf cr (line :: more)) (hcr : c = cr → line.head? = some lf) (hlf : lf ≠ cr) :
    AreLines lf cr ((c :: line) :: more) := by
  generalize hls : line :: more = ls at h
  cases h with
  | nil => cases hls
  | last hl hu =>
    obtain ⟨rfl, rfl⟩ := List.cons.inj hls
    by_cases hc : c = cr
    · exact absurd (List.mem_of_mem_head? (hcr hc)) hu.1
    · exact .last (by simp) (unbroken_cons.mpr ⟨⟨hne, hc⟩, hu⟩)
  | @cons l e more' hu he hnext hmore =>
    obtain ⟨rfl, rfl⟩ := List.cons.inj hls
    by_cases hc : c = cr
    · -- a return before a line that begins with a feed: the line is that feed
      have hhead := hcr hc
      cases l with
      | cons d l =>
        simp only [List.cons_append, List.head?_cons, Option.some.injEq] at hhead
        exact absurd (hhead ▸ List.mem_cons_self) hu.1
      | nil =>
        cases he with
        | feed => exact .cons (l := []) unbroken_nil (hc ▸ .both) (by simp) hmore
        | «return» => exact absurd (by simpa using hhead) hlf.symm
        | both => exact absurd (by simpa using hhead) hlf.symm
    · exact .cons (unbroken_cons.mpr ⟨⟨hne, hc⟩, hu⟩) he hnext hmore

theorem areLines_cut (hlf : lf ≠ cr) (s : List α) : AreLines lf cr (cut lf cr s) := by
  induction s with
  | nil => exact .nil
  | cons c r ih =>
    simp only [cut]
    split
    · next hc =>
      -- a return ends a line only if no feed follows
      have hnext : [c] = [cr] → (cut lf cr r).flatten.head? ≠ some lf := by
        intro he
        rw [flatten_cut]
        rcases hc with rfl | ⟨_, hr⟩
        · exact absurd (List.cons.inj he).1 hlf
        · exact hr
      have he : IsEnding lf cr [c] := by
        rcases hc with rfl | ⟨rfl, _⟩
        · exact .feed
        · exact .return
      exact .cons (l := []) unbroken_nil he hnext ih
    · next hc =>
      have hne : c ≠ lf := fun he => hc (.inl he)
      have hr : (cut lf cr r).flatten = r := flatten_cut r
      cases h : cut lf cr r with
      | nil =>
        -- nothing follows, so a return would have ended the line
        have hcr : c ≠ cr := by
          intro he
          rw [h] at hr
          exact hc (.inr ⟨he, by simp [← hr]⟩)
        exact .last (by simp) (unbroken_cons.mpr ⟨⟨hne, hcr⟩, unbroken_nil⟩)
      | cons line more =>
        rw [h] at ih hr
        refine ih.extend hne (fun he => ?_) hlf
        -- a return that does not end its line is followed by a feed
        have hhead : r.head? = some lf := by
          by_contra hn
          exact hc (.inr ⟨he, hn⟩)
        rw [← hr, List.flatten_cons] at hhead
        cases line with
        | cons d line => simpa using hhead
        | nil =>
          -- no line is empty
          exfalso
          generalize hls : [] :: more = ls at ih
          cases ih with
          | nil => cases hls
          | last hl _ => exact hl (List.cons.inj hls).1.symm
          | cons _ he' _ _ =>
            exact he'.ne_nil (List.append_eq_nil_iff.mp (List.cons.inj hls).1.symm).2

/-! ### Lines are what the cut gives -/

/-- Cutting a content and its ending, with more lines after them. -/
theorem cut_append {l e r : List α} (hlf : lf ≠ cr) (hu : Unbroken lf cr l)
    (he : IsEnding lf cr e) (hnext : e = [cr] → r.head? ≠ some lf) :
    cut lf cr (l ++ (e ++ r)) = (l ++ e) :: cut lf cr r := by
  induction l with
  | nil =>
    cases he with
    | feed => simp [cut]
    | «return» => simp [cut, hnext rfl]
    | both => simp [cut, hlf.symm]
  | cons c l ih =>
    obtain ⟨⟨hne, hcr⟩, hu⟩ := unbroken_cons.mp hu
    simp only [List.cons_append, cut, hne, hcr, false_and, or_self, if_false, ih hu]

/-- An unbroken list is one line. -/
theorem cut_of_unbroken {l : List α} (hl : l ≠ []) (hu : Unbroken lf cr l) :
    cut lf cr l = [l] := by
  induction l with
  | nil => exact absurd rfl hl
  | cons c l ih =>
    obtain ⟨⟨hne, hcr⟩, hu⟩ := unbroken_cons.mp hu
    simp only [cut, hne, hcr, false_and, or_self, if_false]
    cases l with
    | nil => rfl
    | cons d l => rw [ih (by simp) hu]

/-- Lines are cut as they were joined. -/
theorem cut_flatten {ls : List (List α)} (hlf : lf ≠ cr) (h : AreLines lf cr ls) :
    cut lf cr ls.flatten = ls := by
  induction h with
  | nil => rfl
  | last hl hu => simpa using cut_of_unbroken hl hu
  | cons hu he hnext _ ih =>
    rw [List.flatten_cons, List.append_assoc, cut_append hlf hu he hnext, ih]

/-! ### Other contents, the same endings -/

/-- Holds of a line and another with a content of its own and the same ending. -/
def KeepsEnding (lf cr : α) (line line' : List α) : Prop :=
  ∃ a, line' = a ++ ending lf cr line ∧ Unbroken lf cr a ∧ (a = [] → line = ending lf cr line)

/-- Each line is an unbroken content and its ending. -/
theorem AreLines.content {ls : List (List α)} (h : AreLines lf cr ls) :
    ∀ l ∈ ls, ∃ a, l = a ++ ending lf cr l ∧ Unbroken lf cr a ∧
      (ending lf cr l = [] ∨ IsEnding lf cr (ending lf cr l)) := by
  induction h with
  | nil => simp
  | @last l _ hu =>
    intro l' hl'
    rw [List.mem_singleton.mp hl', ending_of_unbroken hu]
    exact ⟨l, by simp, hu, .inl rfl⟩
  | @cons l e more hu he _ _ ih =>
    intro l' hl'
    rcases List.mem_cons.mp hl' with rfl | hl'
    · rw [ending_append hu he]
      exact ⟨l, rfl, hu, .inr he⟩
    · exact ih l' hl'

/-- A line keeps its own ending. -/
theorem AreLines.keepsEnding_self {ls : List (List α)} (h : AreLines lf cr ls) {l : List α}
    (hl : l ∈ ls) : KeepsEnding lf cr l l := by
  obtain ⟨a, ha, hu, _⟩ := h.content l hl
  exact ⟨a, ha, hu, fun he => by simpa [he] using ha⟩

/-- The ending that is kept is the ending of the new line. -/
theorem AreLines.ending_congr {ls : List (List α)} (h : AreLines lf cr ls) {l l' : List α}
    (hl : l ∈ ls) (hk : KeepsEnding lf cr l l') : ending lf cr l' = ending lf cr l := by
  obtain ⟨_, _, _, he⟩ := h.content l hl
  obtain ⟨a, rfl, hu, _⟩ := hk
  rcases he with he | he
  · rw [he, List.append_nil]
    exact ending_of_unbroken hu
  · exact ending_append hu he

/-- The lines that follow begin with no feed if they did not before. -/
theorem AreLines.head?_congr {ls ls' : List (List α)} (h : AreLines lf cr ls)
    (hk : List.Forall₂ (KeepsEnding lf cr) ls ls') (hhead : ls.flatten.head? ≠ some lf) :
    ls'.flatten.head? ≠ some lf := by
  cases hk with
  | nil => exact hhead
  | @cons l l' more more' hl _ =>
    obtain ⟨a, rfl, hu, ha⟩ := hl
    cases a with
    | cons c a =>
      intro hc
      simp only [List.flatten_cons, List.cons_append, List.head?_cons, Option.some.injEq] at hc
      exact hu.1 (hc ▸ List.mem_cons_self)
    | nil =>
      -- the line was its ending alone, so both begin with the same code point
      have hl := ha rfl
      have hne : l ≠ [] := by
        cases h with
        | last hne _ => exact hne
        | cons _ he _ _ => simp [he.ne_nil]
      rw [List.nil_append, ← hl]
      intro hc
      apply hhead
      cases l with
      | nil => exact absurd rfl hne
      | cons c l => simpa using hc

/-- Lines stay lines when their contents are replaced. -/
theorem AreLines.congr {ls ls' : List (List α)} (h : AreLines lf cr ls)
    (hk : List.Forall₂ (KeepsEnding lf cr) ls ls') : AreLines lf cr ls' := by
  induction h generalizing ls' with
  | nil =>
    cases hk
    exact .nil
  | @last l hne hu =>
    cases hk with
    | cons hl hnil =>
      cases hnil
      obtain ⟨a, rfl, hua, ha⟩ := hl
      rw [ending_of_unbroken hu] at ha ⊢
      rw [List.append_nil]
      exact .last (fun he => hne (ha he)) hua
  | @cons l e more hu he hnext hmore ih =>
    cases hk with
    | cons hl hk =>
      obtain ⟨a, rfl, hua, _⟩ := hl
      rw [ending_append hu he]
      exact .cons hua he (fun hcr => hmore.head?_congr hk (hnext hcr)) (ih hk)

/-! ### Writing each code point as several -/

/-- Holds of a way to write the code points of a list that keeps the two line
    breaks and makes no others. -/
structure Spells (lf cr : α) (lf' cr' : β) (f : α → List β) (s : List α) : Prop where
  feed : f lf = [lf']
  ret : f cr = [cr']
  other : ∀ c ∈ s, c ≠ lf → c ≠ cr → Unbroken lf' cr' (f c) ∧ f c ≠ []

section spelling

variable [DecidableEq β] {f : α → List β}

omit [DecidableEq α] [DecidableEq β] in
theorem Spells.mono {s t : List α} (h : Spells lf cr lf' cr' f t) (hs : ∀ c ∈ s, c ∈ t) :
    Spells lf cr lf' cr' f s :=
  ⟨h.feed, h.ret, fun c hc => h.other c (hs c hc)⟩

omit [DecidableEq α] [DecidableEq β] in
/-- An unbroken list is written as one. -/
theorem Spells.unbroken {s : List α} (h : Spells lf cr lf' cr' f s) (hu : Unbroken lf cr s) :
    Unbroken lf' cr' (s.flatMap f) := by
  induction s with
  | nil => exact unbroken_nil
  | cons c s ih =>
    obtain ⟨⟨hlf, hcr⟩, hu⟩ := unbroken_cons.mp hu
    rw [List.flatMap_cons]
    exact (h.other c List.mem_cons_self hlf hcr).1.append
      (ih (h.mono fun _ => List.mem_cons_of_mem c) hu)

omit [DecidableEq α] [DecidableEq β] in
theorem Spells.isEnding {s e : List α} (h : Spells lf cr lf' cr' f s) (he : IsEnding lf cr e) :
    IsEnding lf' cr' (e.flatMap f) := by
  cases he <;> simp only [List.flatMap_cons, List.flatMap_nil, h.feed, h.ret]
  · exact .feed
  · exact .return
  · exact .both

omit [DecidableEq α] [DecidableEq β] in
/-- A list begins with no feed if it did not before it was written. -/
theorem Spells.head?_ne {s : List α} (h : Spells lf cr lf' cr' f s) (hlf : lf' ≠ cr')
    (hs : s.head? ≠ some lf) : (s.flatMap f).head? ≠ some lf' := by
  cases s with
  | nil => simp
  | cons c s =>
    have hc : c ≠ lf := by simpa using hs
    by_cases hcr : c = cr
    · simp [hcr, h.ret, hlf.symm]
    · obtain ⟨hu, hne⟩ := h.other c List.mem_cons_self hc hcr
      intro hhead
      cases hfc : f c with
      | nil => exact hne hfc
      | cons d r =>
        simp only [List.flatMap_cons, hfc, List.cons_append, List.head?_cons,
          Option.some.injEq] at hhead
        rw [hfc] at hu
        exact hu.1 (hhead ▸ List.mem_cons_self)

omit [DecidableEq α] [DecidableEq β] in
theorem flatten_flatMap (ls : List (List α)) (f : α → List β) :
    ls.flatten.flatMap f = (ls.map (·.flatMap f)).flatten := by
  rw [List.flatten_eq_flatMap, List.flatMap_assoc, ← List.flatMap_def]
  rfl

omit [DecidableEq α] [DecidableEq β] in
/-- Lines stay lines when each code point is written as several. -/
theorem AreLines.flatMap {ls : List (List α)} (h : AreLines lf cr ls) (hlf : lf' ≠ cr')
    (hs : Spells lf cr lf' cr' f ls.flatten) : AreLines lf' cr' (ls.map (·.flatMap f)) := by
  induction h with
  | nil => exact .nil
  | @last l hne hu =>
    rw [List.flatten_cons, List.flatten_nil, List.append_nil] at hs
    refine .last ?_ (hs.unbroken hu)
    cases l with
    | nil => exact absurd rfl hne
    | cons c l =>
      obtain ⟨⟨hc, hcr⟩, _⟩ := unbroken_cons.mp hu
      simp [(hs.other c List.mem_cons_self hc hcr).2]
  | @cons l e more hu he hnext _ ih =>
    have hl : Spells lf cr lf' cr' f l := hs.mono fun c hc => by simp [hc]
    have hmore : Spells lf cr lf' cr' f more.flatten := hs.mono fun c hc => by
      rw [List.flatten_cons]
      exact List.mem_append_right _ hc
    rw [List.map_cons, List.flatMap_append]
    refine .cons (hl.unbroken hu) (hs.isEnding he) (fun hcr => ?_) (ih hmore)
    have hcr' : e = [cr] := by
      cases he with
      | feed => simp [hs.feed, hlf] at hcr
      | «return» => rfl
      | both => simp [hs.feed, hs.ret] at hcr
    have := hmore.head?_ne hlf (hnext hcr')
    rwa [flatten_flatMap] at this

/-- Cutting what was written gives the lines as they are written. -/
theorem cut_flatMap {s : List α} (hlf : lf ≠ cr) (hlf' : lf' ≠ cr')
    (hs : Spells lf cr lf' cr' f s) :
    cut lf' cr' (s.flatMap f) = (cut lf cr s).map (·.flatMap f) := by
  have hlines := (areLines_cut hlf s).flatMap hlf' (by rwa [flatten_cut])
  have hflat : ((cut lf cr s).map (·.flatMap f)).flatten = s.flatMap f := by
    rw [← flatten_flatMap, flatten_cut]
  rw [← hflat, cut_flatten hlf' hlines]

/-- The ending of a line is written as the ending of the line that is written. -/
theorem ending_flatMap {s : List α} (hlf : lf ≠ cr) (hs : Spells lf cr lf' cr' f s) {l : List α}
    (hl : l ∈ cut lf cr s) : ending lf' cr' (l.flatMap f) = (ending lf cr l).flatMap f := by
  obtain ⟨a, ha, hu, he⟩ := (areLines_cut hlf s).content l hl
  have hal : Spells lf cr lf' cr' f a := hs.mono fun c hc => by
    rw [← show (cut lf cr s).flatten = s from flatten_cut s]
    exact List.mem_flatten.mpr ⟨l, hl, ha ▸ List.mem_append_left _ hc⟩
  generalize ending lf cr l = e at ha he ⊢
  subst ha
  rw [List.flatMap_append]
  rcases he with rfl | he
  · simpa using ending_of_unbroken (hal.unbroken hu)
  · exact ending_append (hal.unbroken hu) (hs.isEnding he)

end spelling

end Lines

namespace Text

/-! ### The lines of a text -/

/-- Holds of a text without line breaks. -/
abbrev Unbroken (s : Text) : Prop := Lines.Unbroken (CodePoint.char '\n') (CodePoint.char '\r') s

theorem feed_ne_return : CodePoint.char '\n' ≠ CodePoint.char '\r' := by decide

theorem rawLines_eq_cut (s : Text) :
    rawLines s = Lines.cut (CodePoint.char '\n') (CodePoint.char '\r') s := by
  induction s with
  | nil => rfl
  | cons c r ih =>
    rw [rawLines, Lines.cut, ih]
    by_cases hc : c = .char '\n' ∨ (c = .char '\r' ∧ r.head? ≠ some (.char '\n'))
    · rw [if_pos hc, if_pos hc]
    · rw [if_neg hc, if_neg hc]
      cases Lines.cut (CodePoint.char '\n') (CodePoint.char '\r') r <;> rfl

/-- A text is joined from its lines. -/
theorem flatten_rawLines (s : Text) : (rawLines s).flatten = s := by
  rw [rawLines_eq_cut, Lines.flatten_cut]

/-- A line is its content and its ending. -/
theorem splitEnding_append (line : Text) : (splitEnding line).1 ++ (splitEnding line).2 = line :=
  trimRight_append_takeWhile _ line

theorem splitEnding_snd (line : Text) :
    (splitEnding line).2 = Lines.ending (CodePoint.char '\n') (CodePoint.char '\r') line :=
  rfl

/-- The content of a line holds no line break. -/
theorem unbroken_splitEnding {s line : Text} (h : line ∈ rawLines s) :
    Unbroken (splitEnding line).1 := by
  rw [rawLines_eq_cut] at h
  obtain ⟨a, ha, hu, _⟩ := (Lines.areLines_cut feed_ne_return s).content line h
  have hline := splitEnding_append line
  rw [splitEnding_snd] at hline
  rwa [List.append_cancel_right (hline.trans ha)]

end Text

end ClangDb
