import ClangDb.Text.Blank
import Mathlib.Data.List.Infix

/-! # Occurrences and ends of a text

    What cutting at a first occurrence says about a text, and what replacing,
    substituting and trimming leave of its code points.

    Key theorems:
    - `eq_of_cut?`: the two parts and the pattern between them are the text,
    - `cut?_append`, `cut?_append_of_not_mem`: what may stand around a text that is cut,
    - `contains_iff_infix`: a text contains what is an infix of it,
    - `dropStart?_eq_some_iff`: what a text begins with,
    - `replaceAll_append_self`, `replaceAll_cons`: what replacing does at the beginning,
    - `replaceAll_append_cons`: replacing the parts around a code point.
-/

namespace ClangDb

namespace Text

/-! ### Cutting -/

/-- The parts of a text that is cut, with the pattern between them, are the text. -/
theorem eq_of_cut? {pat s before after : Text} (h : cut? pat s = some (before, after)) :
    s = before ++ (pat ++ after) := by
  induction s generalizing before with
  | nil =>
    simp only [cut?] at h
    split at h
    · next hp =>
      obtain ⟨rfl, rfl⟩ := h
      simp [List.isEmpty_iff.mp hp]
    · cases h
  | cons c r ih =>
    simp only [cut?] at h
    split at h
    · next hp =>
      obtain ⟨rfl, rfl⟩ := h
      obtain ⟨t, ht⟩ := List.isPrefixOf_iff_prefix.mp hp
      rw [← ht]
      simp
    · obtain ⟨⟨b, a⟩, hr, hba⟩ := Option.map_eq_some_iff.mp h
      obtain ⟨rfl, rfl⟩ := hba
      rw [ih hr]
      rfl

/-- Behind the first occurrence a text may go on. -/
theorem cut?_append {pat s before after : Text} (h : cut? pat s = some (before, after))
    (t : Text) : cut? pat (s ++ t) = some (before, after ++ t) := by
  induction s generalizing before with
  | nil =>
    rw [cut?] at h
    split at h
    · next hpat =>
      obtain ⟨rfl, rfl⟩ := Prod.mk.inj (Option.some.inj h)
      rw [List.isEmpty_iff.mp hpat]
      cases t <;> rfl
    · cases h
  | cons c r ih =>
    rw [cut?] at h
    rw [List.cons_append, cut?]
    split at h
    · next hstart =>
      -- it begins here, and still does
      obtain ⟨rfl, rfl⟩ := Prod.mk.inj (Option.some.inj h)
      obtain ⟨rest, hrest⟩ := List.isPrefixOf_iff_prefix.mp hstart
      rw [← List.cons_append, ← hrest, List.append_assoc,
        if_pos (List.isPrefixOf_iff_prefix.mpr ⟨rest ++ t, rfl⟩)]
      simp
    · next hstart =>
      obtain ⟨⟨before', after'⟩, hr, heq⟩ := Option.map_eq_some_iff.mp h
      obtain ⟨rfl, rfl⟩ := Prod.mk.inj heq
      -- an occurrence that begins here would end before the one that is cut at
      have hlater : ¬ pat <+: c :: (r ++ t) := by
        intro hpat
        have hshort : pat <+: c :: r := by
          refine List.prefix_of_prefix_length_le hpat
            (List.prefix_append (c :: r) t) ?_
          rw [eq_of_cut? hr]
          simp only [List.length_cons, List.length_append]
          omega
        exact hstart (List.isPrefixOf_iff_prefix.mpr hshort)
      rw [if_neg fun hpat => hlater (List.isPrefixOf_iff_prefix.mp hpat), ih hr]
      rfl

/-- Code points at which the pattern does not begin are passed over. -/
theorem cut?_append_of_not_mem {p : CodePoint} {pat a : Text} (ha : p ∉ a) (s : Text) :
    cut? (p :: pat) (a ++ s) =
      (cut? (p :: pat) s).map fun (before, after) => (a ++ before, after) := by
  induction a with
  | nil =>
    rw [List.nil_append]
    cases cut? (p :: pat) s <;> rfl
  | cons c a ih =>
    rw [List.mem_cons, not_or] at ha
    have hstart : ¬ (p :: pat).isPrefixOf (c :: (a ++ s)) = true := by
      intro h
      exact ha.1 (List.cons_prefix_cons.mp (List.isPrefixOf_iff_prefix.mp h)).1
    rw [List.cons_append, cut?, if_neg hstart, ih ha.2, Option.map_map]
    rfl

/-- An occurrence at the beginning is the first one. -/
theorem cut?_append_self (pat s : Text) : cut? pat (pat ++ s) = some ([], s) := by
  have hstart : cut? pat pat = some ([], []) := by
    cases pat with
    | nil => rfl
    | cons p pat =>
      rw [cut?, if_pos (List.isPrefixOf_iff_prefix.mpr (List.prefix_refl _)), List.drop_length]
  exact cut?_append hstart s

/-- Before the last code point of the pattern, where it occurs first, no occurrence ends. -/
theorem cut?_append_concat {p a : Text} {q : CodePoint} (hp : q ∉ p) (ha : q ∉ a) (b : Text) :
    cut? (p ++ [q]) (a ++ (p ++ q :: b)) = some (a, b) := by
  have hself : p ++ q :: b = (p ++ [q]) ++ b := List.append_cons p q b
  induction a with
  | nil =>
    rw [List.nil_append, hself]
    exact cut?_append_self (p ++ [q]) b
  | cons c a ih =>
    rw [List.mem_cons, not_or] at ha
    -- an occurrence that begins here would end before the code point
    have hstart : ¬ (p ++ [q]).isPrefixOf (c :: (a ++ (p ++ q :: b))) = true := by
      intro h
      have hshort : p ++ [q] <+: c :: (a ++ p) := by
        refine List.prefix_of_prefix_length_le (List.isPrefixOf_iff_prefix.mp h)
          ⟨q :: b, by simp⟩ ?_
        simp only [List.length_cons, List.length_append, List.length_nil]
        omega
      have hmem : q ∈ c :: (a ++ p) := hshort.subset (by simp)
      simp [ha, hp] at hmem
    rw [List.cons_append, cut?, if_neg hstart, ih ha.2]
    rfl

/-- No occurrence begins before the one that is cut at. -/
theorem length_le_of_cut? {pat s before after a b : Text} (h : cut? pat s = some (before, after))
    (hs : s = a ++ (pat ++ b)) : b.length ≤ after.length := by
  induction s generalizing before a with
  | nil =>
    have hlength := congrArg List.length hs
    simp only [List.length_nil, List.length_append] at hlength
    omega
  | cons c r ih =>
    rw [cut?] at h
    split at h
    · obtain ⟨rfl, rfl⟩ := Prod.mk.inj (Option.some.inj h)
      rw [hs]
      simp only [List.length_drop, List.length_append]
      omega
    · next hstart =>
      obtain ⟨⟨before', after'⟩, hr, heq⟩ := Option.map_eq_some_iff.mp h
      obtain ⟨_, rfl⟩ := Prod.mk.inj heq
      cases a with
      | nil => exact absurd (List.isPrefixOf_iff_prefix.mpr ⟨b, hs.symm⟩) hstart
      | cons d a => exact ih hr (List.cons.inj hs).2

/-- A text in which the pattern occurs is cut. -/
theorem isSome_cut?_append (pat a b : Text) : (cut? pat (a ++ (pat ++ b))).isSome := by
  induction a with
  | nil =>
    cases h : pat ++ b with
    | nil => simp_all [cut?]
    | cons c r =>
      have hp : pat.isPrefixOf (c :: r) = true :=
        List.isPrefixOf_iff_prefix.mpr ⟨b, h⟩
      simp [cut?, hp]
  | cons c a ih =>
    simp only [List.cons_append, cut?]
    split
    · rfl
    · simpa using ih

/-- A text contains exactly what is an infix of it. -/
theorem contains_iff_infix {pat s : Text} : s.contains pat = true ↔ pat <:+: s := by
  constructor
  · intro h
    obtain ⟨⟨before, after⟩, hc⟩ := Option.isSome_iff_exists.mp h
    exact ⟨before, after, by rw [eq_of_cut? hc, List.append_assoc]⟩
  · rintro ⟨a, b, rfl⟩
    rw [List.append_assoc]
    exact isSome_cut?_append pat a b

/-- One code point is contained if it is in the text. -/
theorem contains_singleton (s : Text) (c : CodePoint) : s.contains [c] = decide (c ∈ s) := by
  rw [Bool.eq_iff_iff, contains_iff_infix, decide_eq_true_iff, List.singleton_infix_iff]

/-! ### Beginnings -/

/-- What follows a beginning is what the text goes on with. -/
theorem dropStart?_eq_some_iff {pat s rest : Text} :
    dropStart? pat s = some rest ↔ s = pat ++ rest := by
  induction pat generalizing s with
  | nil => exact Option.some_inj
  | cons p pat ih =>
    cases s with
    | nil => simp [dropStart?]
    | cons c s =>
      rw [dropStart?, List.cons_append, List.cons_eq_cons, ← ih]
      by_cases hc : p = c
      · rw [if_pos hc, and_iff_right hc.symm]
      · simp [hc, Ne.symm hc]

/-! ### Replacing -/

theorem replaceFrom_length_append (pat new a b : Text) :
    replaceFrom pat new a.length (a ++ b) = replaceFrom pat new 0 b := by
  induction a with
  | nil => rfl
  | cons c a ih => exact ih

/-- An occurrence at the beginning is replaced, and then what follows it. -/
theorem replaceAll_append_self {pat : Text} (hpat : pat ≠ []) (new s : Text) :
    (pat ++ s).replaceAll pat new = new ++ s.replaceAll pat new := by
  cases pat with
  | nil => exact absurd rfl hpat
  | cons p pat =>
    have hstart : (p :: pat).isPrefixOf (p :: (pat ++ s)) = true :=
      List.isPrefixOf_iff_prefix.mpr ⟨s, rfl⟩
    have hskip := replaceFrom_length_append (p :: pat) new pat s
    show replaceFrom (p :: pat) new 0 (p :: (pat ++ s)) = _
    rw [replaceFrom, if_pos hstart]
    exact congrArg (new ++ ·) hskip

/-- Where no occurrence begins, a code point stays. -/
theorem replaceAll_cons {pat s : Text} {c : CodePoint} (h : ¬ pat <+: c :: s) (new : Text) :
    replaceAll (c :: s) pat new = c :: s.replaceAll pat new := by
  have hstart : ¬ pat.isPrefixOf (c :: s) = true := fun hp => h (List.isPrefixOf_iff_prefix.mp hp)
  show replaceFrom pat new 0 (c :: s) = _
  rw [replaceFrom, if_neg hstart]
  rfl

/-- Where a code point of the pattern is missing nothing is replaced. -/
theorem replaceAll_of_not_mem {pat s : Text} {p : CodePoint} (hp : p ∈ pat) (hs : p ∉ s)
    (new : Text) : s.replaceAll pat new = s := by
  induction s with
  | nil => rfl
  | cons c s ih =>
    rw [replaceAll_cons (fun h => hs (h.subset hp)) new,
      ih fun hmem => hs (List.mem_cons_of_mem c hmem)]

theorem replaceFrom_append_cons {pat : Text} {q : CodePoint} (hpat : pat ≠ []) (hq : q ∉ pat)
    (new b : Text) {n : Nat} {a : Text} (hn : n ≤ a.length) :
    replaceFrom pat new n (a ++ q :: b) =
      replaceFrom pat new n a ++ q :: replaceFrom pat new 0 b := by
  induction a generalizing n with
  | nil =>
    obtain rfl : n = 0 := Nat.le_zero.mp hn
    refine replaceAll_cons ?_ new
    intro h
    cases pat with
    | nil => exact hpat rfl
    | cons p pat =>
      rw [(List.cons_prefix_cons.mp h).1] at hq
      exact hq List.mem_cons_self
  | cons c a ih =>
    rw [List.length_cons] at hn
    cases n with
    | succ n => exact ih (by omega)
    | zero =>
      -- an occurrence that begins before the code point ends before it
      have hstart : pat <+: (c :: a) ++ q :: b → pat <+: c :: a := by
        rintro ⟨rest, hrest⟩
        rcases List.append_eq_append_iff.mp hrest with ⟨m, hm, _⟩ | ⟨m, rfl, hm⟩
        · exact ⟨m, hm.symm⟩
        · cases m with
          | nil => exact ⟨[], by simp⟩
          | cons d m =>
            obtain ⟨rfl, _⟩ := List.cons.inj hm
            exact absurd (by simp) hq
      have hsame : pat.isPrefixOf (c :: (a ++ q :: b)) = pat.isPrefixOf (c :: a) := by
        rw [Bool.eq_iff_iff, List.isPrefixOf_iff_prefix, List.isPrefixOf_iff_prefix]
        exact ⟨hstart, fun h => h.trans (List.prefix_append (c :: a) (q :: b))⟩
      rw [List.cons_append, replaceFrom, replaceFrom, hsame]
      split
      · next h =>
        have hlen := (List.isPrefixOf_iff_prefix.mp h).length_le
        rw [List.length_cons] at hlen
        rw [ih (by omega), List.append_assoc]
      · rw [ih (Nat.zero_le _), List.cons_append]

/-- What stands before a code point that the pattern does not hold is replaced by itself. -/
theorem replaceAll_append_cons {pat : Text} {q : CodePoint} (hpat : pat ≠ []) (hq : q ∉ pat)
    (new a b : Text) :
    replaceAll (a ++ q :: b) pat new = replaceAll a pat new ++ q :: replaceAll b pat new :=
  replaceFrom_append_cons hpat hq new b (Nat.zero_le _)

/-! ### Code points that are left -/

theorem mem_replaceFrom {pat new s : Text} {n : Nat} {c : CodePoint}
    (h : c ∈ replaceFrom pat new n s) : c ∈ s ∨ c ∈ new := by
  induction s generalizing n with
  | nil => simp [replaceFrom] at h
  | cons d r ih =>
    cases n with
    | succ n =>
      rcases ih h with h | h
      · exact .inl (List.mem_cons_of_mem _ h)
      · exact .inr h
    | zero =>
      simp only [replaceFrom] at h
      split at h
      · rcases List.mem_append.mp h with h | h
        · exact .inr h
        · rcases ih h with h | h
          · exact .inl (List.mem_cons_of_mem _ h)
          · exact .inr h
      · rcases List.mem_cons.mp h with rfl | h
        · exact .inl List.mem_cons_self
        · rcases ih h with h | h
          · exact .inl (List.mem_cons_of_mem _ h)
          · exact .inr h

/-- A replacement brings in no code points but those of the new text. -/
theorem mem_replaceAll {pat new s : Text} {c : CodePoint} (h : c ∈ s.replaceAll pat new) :
    c ∈ s ∨ c ∈ new :=
  mem_replaceFrom h

theorem mem_replaceFrom_of_not_mem {pat new s : Text} {n : Nat} {c : CodePoint} (hpat : pat ≠ [])
    (hc : c ∉ pat) (h : c ∈ s.drop n) : c ∈ replaceFrom pat new n s := by
  induction s generalizing n with
  | nil => simp at h
  | cons d r ih =>
    cases n with
    | succ n => exact ih h
    | zero =>
      rw [replaceFrom]
      split
      · next hp =>
        obtain ⟨rest, hrest⟩ := List.isPrefixOf_iff_prefix.mp hp
        cases pat with
        | nil => exact absurd rfl hpat
        | cons p pat =>
          obtain ⟨rfl, rfl⟩ := List.cons.inj hrest
          rw [List.mem_cons, not_or] at hc
          -- the code point stands behind the occurrence that is replaced
          have hmem : c ∈ rest := by
            rcases List.mem_cons.mp h with rfl | h
            · exact absurd rfl hc.1
            · exact (List.mem_append.mp h).resolve_left hc.2
          exact List.mem_append_right _ (ih (by simpa using hmem))
      · rcases List.mem_cons.mp h with rfl | h
        · exact List.mem_cons_self
        · exact List.mem_cons_of_mem _ (ih h)

/-- A replacement takes away no code point but those of the pattern. -/
theorem mem_replaceAll_of_not_mem {pat s : Text} {c : CodePoint} (hpat : pat ≠ []) (hc : c ∉ pat)
    (h : c ∈ s) (new : Text) : c ∈ s.replaceAll pat new :=
  mem_replaceFrom_of_not_mem hpat hc h

theorem mem_substitute_of_ne {s : Text} {old c : CodePoint} (hc : c ≠ old) (h : c ∈ s)
    (new : CodePoint) : c ∈ s.substitute old new :=
  List.mem_map.mpr ⟨c, h, if_neg hc⟩

/-- A substitution brings in no code point but the new one. -/
theorem mem_substitute {s : Text} {old new c : CodePoint} (h : c ∈ s.substitute old new) :
    (c ∈ s ∧ c ≠ old) ∨ c = new := by
  obtain ⟨d, hd, rfl⟩ := List.mem_map.mp h
  by_cases he : d = old
  · exact .inr (by simp [he])
  · exact .inl (by simp [he, hd])

/-- Where the old code point is not there a substitution does nothing. -/
theorem substitute_of_not_mem {s : Text} {old : CodePoint} (h : old ∉ s) (new : CodePoint) :
    s.substitute old new = s := by
  have hsame : ∀ c ∈ s, (if c = old then new else c) = c := by
    intro c hc
    rw [if_neg]
    rintro rfl
    exact h hc
  exact (List.map_congr_left hsame).trans (List.map_id s)

/-- After a substitution the old code point is gone. -/
theorem not_mem_substitute {s : Text} {old new : CodePoint} (h : old ≠ new) :
    old ∉ s.substitute old new := by
  intro hm
  rcases mem_substitute hm with ⟨_, hne⟩ | he
  · exact hne rfl
  · exact h he

theorem mem_of_mem_trimRight {p : CodePoint → Bool} {s : Text} {c : CodePoint}
    (h : c ∈ s.trimRight p) : c ∈ s := by
  have h' : c ∈ s.reverse.dropWhile p := by simpa [trimRight] using h
  simpa using (List.dropWhile_sublist p).mem h'

theorem mem_of_mem_trim {s : Text} {c : CodePoint} (h : c ∈ s.trim) : c ∈ s :=
  (List.dropWhile_sublist _).mem (mem_of_mem_trimRight h)

/-! ### Trimming -/

/-- Nothing is trimmed at an end whose last code point is not in the set. -/
theorem trimRight_concat {p : CodePoint → Bool} {s : Text} {c : CodePoint} (h : p c = false) :
    trimRight p (s ++ [c]) = s ++ [c] := by
  simp [trimRight, h]

/-- A text and the run of its code points in a set at its end. -/
theorem trimRight_append_takeWhile (p : CodePoint → Bool) (s : Text) :
    s.trimRight p ++ (s.reverse.takeWhile p).reverse = s := by
  rw [trimRight, ← List.reverse_append, List.takeWhile_append_dropWhile, List.reverse_reverse]

theorem trimRight_begins (p : CodePoint → Bool) (s : Text) : s.trimRight p <+: s :=
  ⟨_, trimRight_append_takeWhile p s⟩

end Text

end ClangDb
