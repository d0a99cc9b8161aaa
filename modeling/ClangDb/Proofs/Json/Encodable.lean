import ClangDb.Json.Writer
import ClangDb.Proofs.Text.Utf8

/-! # Written JSON has bytes

    A document is written in characters: a lone surrogate of a string is escaped,
    and everything else that is written is made of digits, letters and signs.  So
    a document can always be encoded, whatever value it states.

    Key theorems:
    - `encodable_number`: numbers, with those that are not finite,
    - `encodable_write`: documents.
-/

namespace ClangDb

open Utf8 (Encodable encodable_append encodable_cons encodable_ofString)

variable {s t : Text}

theorem encodable_chars (cs : List Char) : Encodable (cs.map .char) := by
  intro c hc
  obtain ⟨d, _, rfl⟩ := List.mem_map.mp hc
  rfl

theorem Utf8.Encodable.append (hs : Encodable s) (ht : Encodable t) : Encodable (s ++ t) :=
  encodable_append.mpr ⟨hs, ht⟩

theorem Utf8.Encodable.cons (c : Char) (hs : Encodable s) : Encodable (.char c :: s) :=
  encodable_cons.mpr ⟨rfl, hs⟩

theorem Utf8.Encodable.of_sublist (hs : Encodable s) (h : List.Sublist t s) : Encodable t :=
  fun c hc => hs c (h.mem hc)

theorem encodable_nil : Encodable [] := by
  intro c hc
  cases hc

/-! ### Numbers -/

theorem encodable_ofNat (n : Nat) : Encodable (Text.ofNat n) := encodable_chars _

theorem encodable_ofInt (n : Int) : Encodable (Text.ofInt n) := by
  cases n with
  | ofNat n => exact encodable_ofNat n
  | negSucc n => exact (encodable_ofNat (n + 1)).cons '-'

theorem encodable_replicate (n : Nat) (c : Char) : Encodable (List.replicate n (.char c)) := by
  intro d hd
  rw [List.eq_of_mem_replicate hd]
  rfl

theorem encodable_significant (d : Binary64.Decimal) : Encodable d.significant := by
  refine (encodable_ofNat d.digits).of_sublist ?_
  unfold Binary64.Decimal.significant Text.trimRight
  have hdrop := List.dropWhile_sublist (l := (Text.ofNat d.digits).reverse)
    (fun c => decide (c = .char '0'))
  simpa using hdrop.reverse

theorem encodable_exponent (l : Binary64.Layout) (e : Int) : Encodable (l.exponent e) := by
  unfold Binary64.Layout.exponent
  refine Utf8.Encodable.append ?_ (encodable_ofNat _)
  exact ((encodable_replicate _ '0').cons _).cons 'e'

theorem encodable_decimal (l : Binary64.Layout) (d : Binary64.Decimal) :
    Encodable (l.decimal d) := by
  have hdigits := encodable_significant d
  have hzeros : ∀ n, Encodable (Binary64.zeros n) := fun n => encodable_replicate n '0'
  unfold Binary64.Layout.decimal
  simp only
  split
  · split
    · exact ((encodable_ofString "0.").append (hzeros _)).append hdigits
    · refine ((Utf8.Encodable.append ?_ (hzeros _)).append (encodable_ofString ".")).append ?_
      · exact hdigits.of_sublist (List.take_sublist _ _)
      · split
        · exact hzeros 1
        · exact hdigits.of_sublist (List.drop_sublist _ _)
  · refine (Utf8.Encodable.append ?_ ?_).append (encodable_exponent l _)
    · exact hdigits.of_sublist (List.take_sublist _ _)
    · split
      · exact encodable_nil
      · exact (hdigits.of_sublist (List.drop_sublist _ _)).cons '.'

theorem encodable_number (x : Binary64) : Encodable (Json.numberLayout.number x) := by
  have hsign : ∀ negative, Encodable (if negative = true then [.char '-'] else []) := by
    intro negative
    split
    · exact encodable_nil.cons '-'
    · exact encodable_nil
  cases x with
  | nan => exact encodable_ofString "NaN"
  | infinite negative => exact (hsign negative).append (encodable_ofString "Infinity")
  | finite negative m q =>
    refine (hsign negative).append ?_
    split
    · exact encodable_decimal _ _
    · exact encodable_decimal _ _

/-! ### Strings -/

theorem encodable_hexDigits (width n : Nat) : Encodable (hexDigits width n) := by
  induction width generalizing n with
  | zero => exact encodable_nil
  | succ width ih => exact (ih (n / 16)).append (encodable_nil.cons _)

theorem encodable_escapeUnit (n : Nat) : Encodable (Json.escapeUnit n) :=
  (encodable_ofString "\\u").append (encodable_hexDigits 4 n)

/-- A code point is escaped, unless it is a character of ASCII. -/
theorem encodable_writeUnit (c : CodePoint) : Encodable (Json.writeUnit c) := by
  unfold Json.writeUnit
  repeat' split
  all_goals first
    | exact encodable_ofString _
    | exact encodable_escapeUnit _
    | exact (encodable_escapeUnit _).append (encodable_escapeUnit _)
    | skip
  next hvisible =>
    cases c with
    | char d => exact encodable_nil.cons d
    | lone u =>
      have hle : 0xD800 + u.val ≤ 0x7e := hvisible.2
      omega

theorem encodable_writeString (s : Text) : Encodable (Json.writeString s) := by
  unfold Json.writeString
  refine (Utf8.Encodable.cons '"' ?_).append (encodable_nil.cons '"')
  intro c hc
  obtain ⟨d, _, hd⟩ := List.mem_flatMap.mp hc
  exact encodable_writeUnit d c hd

/-! ### Documents -/

theorem encodable_newline (f : Json.Format) (level : Nat) : Encodable (f.newline level) := by
  cases f with
  | oneLine => exact encodable_nil
  | indented spaces => exact (encodable_replicate _ ' ').cons '\n'

theorem encodable_separator (f : Json.Format) (level : Nat) : Encodable (f.separator level) := by
  cases f with
  | oneLine => exact encodable_ofString ", "
  | indented spaces => exact (encodable_newline (.indented spaces) level).cons ','

mutual

/-- A value at any level. -/
theorem encodable_writeAt (f : Json.Format) (level : Nat) (v : Json) :
    Encodable (Json.writeAt f level v) := by
  match v with
  | .null => exact encodable_ofString "null"
  | .bool true => exact encodable_ofString "true"
  | .bool false => exact encodable_ofString "false"
  | .int n => exact encodable_ofInt n
  | .number x => exact encodable_number x
  | .string s => exact encodable_writeString s
  | .array [] => exact encodable_ofString "[]"
  | .array (v :: vs) =>
    exact ((((encodable_ofString "[").append (encodable_newline f _)).append
      (encodable_writeElements f _ (v :: vs))).append (encodable_newline f _)).append
      (encodable_ofString "]")
  | .object [] => exact encodable_ofString "\x7b\x7d"
  | .object (m :: ms) =>
    exact ((((encodable_ofString "\x7b").append (encodable_newline f _)).append
      (encodable_writeMembers f _ (m :: ms))).append (encodable_newline f _)).append
      (encodable_ofString "\x7d")

theorem encodable_writeElements (f : Json.Format) (level : Nat) (vs : List Json) :
    Encodable (Json.writeElements f level vs) := by
  match vs with
  | [] => exact encodable_nil
  | [v] => exact encodable_writeAt f level v
  | v :: w :: vs =>
    exact ((encodable_writeAt f level v).append (encodable_separator f level)).append
      (encodable_writeElements f level (w :: vs))

theorem encodable_writeMembers (f : Json.Format) (level : Nat) (ms : List (Text × Json)) :
    Encodable (Json.writeMembers f level ms) := by
  match ms with
  | [] => exact encodable_nil
  | [(k, v)] =>
    exact ((encodable_writeString k).append (encodable_ofString ": ")).append
      (encodable_writeAt f level v)
  | (k, v) :: m :: ms =>
    exact ((((encodable_writeString k).append (encodable_ofString ": ")).append
      (encodable_writeAt f level v)).append (encodable_separator f level)).append
      (encodable_writeMembers f level (m :: ms))

end

/-- **A document has bytes.** -/
theorem encodable_write (f : Json.Format) (v : Json) : Encodable (v.write f) :=
  encodable_writeAt f 0 v

end ClangDb
