import ClangDb.Proofs.Database.Literal
import ClangDb.Proofs.Database.Pass
import ClangDb.Proofs.Database.Redirect
import ClangDb.Proofs.Database.Scan
import ClangDb.Proofs.Text.ByteLines

/-! # A pass keeps the lines of its input

    The text of a pass is cut into the lines that the scan gave, because a scan
    changes the content of a line only, and the new content holds no line break.
    Together with the cut of bytes this carries over to files: a pass keeps the
    number of lines, their order and their endings, and it changes none but
    command lines that are redirected.

    Key theorems:
    - `rawLines_scanLines`: the lines of the text,
    - `encodable_scanLines`: the text has bytes,
    - `pass_keepsLines`: the lines of the file.
-/

namespace ClangDb

namespace Database

open Utf8 (byteLines byteEnding bytesOf decodeEscaping Encodable)

/-! ### The content of a redirected line -/

theorem mem_of_mem_fileOn? {raw file : Text} (h : fileOn? raw = some file) {c : CodePoint}
    (hc : c ∈ file) : c ∈ (Text.splitEnding raw).1 := by
  unfold fileOn? at h
  split at h
  · cases h
  · exact mem_of_mem_fileValue? h hc

/-- The new content is made of code points of the contents of lines, of the output folder
    and of graphic characters. -/
theorem forall_mem_redirect? {P : CodePoint → Prop} (hP : Graphic P) {o : Options}
    {before : List Text} {raw line : Text} {job : Job}
    (h : redirect? o (stateAfter .initial before) raw = some (line, job))
    (hraw : ∀ c ∈ (Text.splitEnding raw).1, P c)
    (hbefore : ∀ x ∈ before, ∀ c ∈ (Text.splitEnding x).1, P c)
    (hdir : ∀ c ∈ o.outputDir, P c) : ∀ c ∈ line, P c := by
  obtain ⟨_, _, hredirect⟩ := redirect?_spec h
  obtain ⟨x, hx, hfile⟩ := (awaits_of_redirect? h).exists_mem
  exact forall_mem_redirectCommand hP hredirect hraw
    (fun c hc => hbefore x hx c (mem_of_mem_fileOn? hfile hc)) hdir

/-- A redirected line is not empty: it holds the key. -/
theorem ne_nil_of_redirect? {o : Options} {s : State} {raw line : Text} {job : Job}
    (h : redirect? o s raw = some (line, job)) : line ≠ [] := by
  obtain ⟨_, _, hredirect⟩ := redirect?_spec h
  obtain ⟨c, hc, _⟩ := redirectCommand_spec hredirect
  obtain ⟨_, rest, rfl⟩ := prefix_of_redirectCommand hredirect hc
  simp [commandKey, Text.ofString]

/-! ### Lines -/

theorem unbroken_iff {s : Text} :
    Text.Unbroken s ↔ ∀ c ∈ s, c ≠ .char '\n' ∧ c ≠ .char '\r' := by
  constructor
  · intro h c hc
    exact ⟨fun he => h.1 (he ▸ hc), fun he => h.2 (he ▸ hc)⟩
  · intro h
    exact ⟨fun hc => (h _ hc).1 rfl, fun hc => (h _ hc).2 rfl⟩

theorem graphic_unbroken : Graphic fun c => c ≠ .char '\n' ∧ c ≠ .char '\r' := by
  intro d hd
  constructor
  · intro he
    rw [CodePoint.char.inj he] at hd
    exact absurd hd (by decide)
  · intro he
    rw [CodePoint.char.inj he] at hd
    exact absurd hd (by decide)

theorem graphic_encodable : Graphic fun c => (Utf8.encodeUnit? c).isSome = true :=
  fun _ _ => rfl

/-- What a scan gives for a line keeps its ending. -/
theorem keepsEnding_scanLine {o : Options} (hdir : Text.Unbroken o.outputDir) {text : Text}
    {before : List Text} {raw : Text} {after : List Text}
    (h : Text.rawLines text = before ++ raw :: after) :
    Lines.KeepsEnding (CodePoint.char '\n') (.char '\r') raw
      (scanLine o (stateAfter .initial before) raw).line := by
  have hcontent : ∀ x ∈ before ++ raw :: after, Text.Unbroken (Text.splitEnding x).1 :=
    fun x hx => Text.unbroken_splitEnding (h ▸ hx)
  rw [scanLine_line]
  split
  · next line job hredirect =>
    -- the new content is made of contents, which hold no line break
    have hline : Text.Unbroken line := unbroken_iff.mpr <|
      forall_mem_redirect? graphic_unbroken hredirect
        (unbroken_iff.mp (hcontent raw (by simp)))
        (fun x hx => unbroken_iff.mp (hcontent x (by simp [hx]))) (unbroken_iff.mp hdir)
    refine ⟨line, ?_, hline, fun he => absurd he (ne_nil_of_redirect? hredirect)⟩
    rw [Text.splitEnding_snd]
  · have hare := Lines.areLines_cut Text.feed_ne_return text
    rw [← Text.rawLines_eq_cut, h] at hare
    exact hare.keepsEnding_self (by simp)

/-- **The text of a scan is cut into the lines that the scan gave.** -/
theorem rawLines_scanLines {o : Options} (hdir : Text.Unbroken o.outputDir) (text : Text) :
    Text.rawLines (scanLines o .initial (Text.rawLines text)).lines.flatten =
      (scanLines o .initial (Text.rawLines text)).lines := by
  have hare := Lines.areLines_cut Text.feed_ne_return text
  rw [← Text.rawLines_eq_cut] at hare
  rw [Text.rawLines_eq_cut]
  exact Lines.cut_flatten Text.feed_ne_return
    (hare.congr (forall₂_scanLines fun _ _ _ h => keepsEnding_scanLine hdir h))

/-- The text of a scan has bytes if the lines and the output folder have. -/
theorem encodable_scanLines {o : Options} (hdir : Encodable o.outputDir) {lines : List Text}
    (h : ∀ l ∈ lines, Encodable l) : Encodable (scanLines o .initial lines).lines.flatten := by
  have hparts : ∀ x ∈ lines,
      Encodable (Text.splitEnding x).1 ∧ Encodable (Text.splitEnding x).2 := by
    intro x hx
    rw [← Utf8.encodable_append, Text.splitEnding_append]
    exact h x hx
  intro c hc
  obtain ⟨l, hl, hcl⟩ := List.mem_flatten.mp hc
  obtain ⟨before, raw, after, rfl, rfl⟩ := mem_lines_scanLines hl
  rw [scanLine_line] at hcl
  split at hcl
  · next line job hredirect =>
    have hline : Encodable line := forall_mem_redirect? graphic_encodable hredirect
      (hparts raw (by simp)).1 (fun x hx => (hparts x (by simp [hx])).1) hdir
    exact Utf8.encodable_append.mpr ⟨hline, (hparts raw (by simp)).2⟩ c hcl
  · exact h raw (by simp) c hcl

/-! ### Files -/

/-- Holds of a line of a file and of what a pass may make of it when it does not leave
    the line alone: a command of a file that is awaited, with a compiler and without a
    reference that does not end.  The key and all before it stay. -/
structure Redirected (dialect : Dialect) (before : List Text) (l l' : List UInt8) : Prop where
  key : isCommand (decodeEscaping l) = true
  awaited : ∃ file, Awaits before file
  command : ∃ c lead, Command.ofLine? dialect (Text.splitEnding (decodeEscaping l)).1 = some c ∧
    (∀ front rest, Text.cut? reference c.tail = some (front, rest) →
      rest.contains escapedQuote = true) ∧
    Utf8.encode (c.indent ++ commandKey) = .ok lead ∧ lead <+: l ∧ lead <+: l'

/-- Holds of a file and of one with as many lines, each with the ending of the line at its
    place and equal to it unless that line is redirected. -/
structure KeepsLines (dialect : Dialect) (bytes out : List UInt8) : Prop where
  length : (byteLines out).length = (byteLines bytes).length
  ending : ∀ (i : Nat) (l l' : List UInt8), (byteLines bytes)[i]? = some l →
    (byteLines out)[i]? = some l' → byteEnding l' = byteEnding l
  content : ∀ (i : Nat) (l l' : List UInt8), (byteLines bytes)[i]? = some l →
    (byteLines out)[i]? = some l' → l' ≠ l →
    Redirected dialect (((byteLines bytes).take i).map decodeEscaping) l l'

theorem bytesOf_prefix {a s : Text} (h : a <+: s) : bytesOf a <+: bytesOf s := by
  obtain ⟨rest, rfl⟩ := h
  exact ⟨bytesOf rest, (Utf8.bytesOf_append a rest).symm⟩

/-- A line that a scan changes is redirected. -/
theorem redirected_of_ne {o : Options} {before : List Text} {raw : Text} {l : List UInt8}
    (henc : Encodable raw) (hl : decodeEscaping l = raw) (hbytes : bytesOf raw = l)
    (hne : (scanLine o (stateAfter .initial before) raw).line ≠ raw) :
    Redirected o.dialect before l
      (bytesOf (scanLine o (stateAfter .initial before) raw).line) := by
  rw [scanLine_line] at hne ⊢
  cases hredirect : redirect? o (stateAfter .initial before) raw with
  | none =>
    rw [hredirect] at hne
    exact absurd rfl hne
  | some found =>
    obtain ⟨line, job⟩ := found
    obtain ⟨hkey, _, hcommand⟩ := redirect?_spec hredirect
    obtain ⟨c, hc, _, hkind⟩ := redirectCommand_spec hcommand
    obtain ⟨hold, hnew⟩ := prefix_of_redirectCommand hcommand hc
    have hparts := Text.splitEnding_append raw
    have hlead : c.indent ++ commandKey <+: raw :=
      hold.trans ⟨_, hparts⟩
    refine ⟨hl ▸ hkey, ⟨_, awaits_of_redirect? hredirect⟩, c, bytesOf (c.indent ++ commandKey),
      hl ▸ hc, ?_, ?_, hbytes ▸ bytesOf_prefix hlead, ?_⟩
    · intro front rest hcut
      rcases hkind with ⟨_, _, referenced, after, hcut', hquote, _⟩ | ⟨hcut', _⟩
      · rw [hcut] at hcut'
        obtain ⟨rfl, rfl⟩ := Prod.mk.inj (Option.some.inj hcut')
        rw [Text.contains, hquote]
        rfl
      · rw [hcut] at hcut'
        cases hcut'
    · exact Utf8.encode_eq_ok_iff.mpr ⟨fun d hd => henc d (hlead.subset hd), rfl⟩
    · exact bytesOf_prefix (hnew.trans (List.prefix_append line _))

/-- What a scan gives, written as bytes, keeps the lines of the bytes that were scanned. -/
theorem keepsLines_scanLines {o : Options} (hdir : Text.Unbroken o.outputDir)
    (henc : Encodable o.outputDir) (bytes : List UInt8) :
    KeepsLines o.dialect bytes
      (bytesOf (scanLines o .initial (Text.rawLines (decodeEscaping bytes))).lines.flatten) := by
  have hin := Utf8.encodable_decodeEscaping bytes
  have hbytes := Utf8.byteLines_eq_map bytes
  have hdecode := Utf8.decodeEscaping_byteLines bytes
  have hare := Lines.areLines_cut Text.feed_ne_return (decodeEscaping bytes)
  rw [← Text.rawLines_eq_cut] at hare
  have hlines := Utf8.encodable_of_mem_rawLines hin
  have hout := encodable_scanLines henc hlines
  have hbytes' := Utf8.byteLines_bytesOf hout
  rw [rawLines_scanLines hdir] at hbytes'
  -- a line of the input and what the scan gave for it
  have hpair : ∀ {i : Nat} {l l' : List UInt8}, (byteLines bytes)[i]? = some l →
      (byteLines (bytesOf (scanLines o .initial
        (Text.rawLines (decodeEscaping bytes))).lines.flatten))[i]? = some l' →
      ∃ before raw after, Text.rawLines (decodeEscaping bytes) = before ++ raw :: after ∧
        before = (Text.rawLines (decodeEscaping bytes)).take i ∧ l = bytesOf raw ∧
        decodeEscaping l = raw ∧
        l' = bytesOf (scanLine o (stateAfter .initial before) raw).line := by
    intro i l l' hl hl'
    have hraw := congrArg (·[i]?) hdecode
    simp only [List.getElem?_map, hl, Option.map_some] at hraw
    obtain ⟨hlt, hi⟩ := List.getElem?_eq_some_iff.mp hraw.symm
    rw [hbytes, List.getElem?_map, ← hraw] at hl
    rw [hbytes', List.getElem?_map, getElem?_scanLines, ← hraw] at hl'
    refine ⟨_, decodeEscaping l, (Text.rawLines (decodeEscaping bytes)).drop (i + 1), ?_, rfl,
      (Option.some.inj hl).symm, rfl, (Option.some.inj hl').symm⟩
    rw [← hi, List.cons_getElem_drop_succ, List.take_append_drop]
  constructor
  · rw [hbytes', hbytes, List.length_map, List.length_map, length_scanLines]
  · intro i l l' hl hl'
    obtain ⟨before, raw, after, hsplit, _, rfl, _, rfl⟩ := hpair hl hl'
    have hraw : raw ∈ Text.rawLines (decodeEscaping bytes) := by simp [hsplit]
    have hline : (scanLine o (stateAfter .initial before) raw).line ∈
        Text.rawLines (scanLines o .initial
          (Text.rawLines (decodeEscaping bytes))).lines.flatten := by
      rw [rawLines_scanLines hdir, hsplit, scanLines_append]
      exact List.mem_append_right _ List.mem_cons_self
    rw [Utf8.byteEnding_bytesOf hout hline, Utf8.byteEnding_bytesOf hin hraw]
    congr 1
    exact hare.ending_congr hraw (keepsEnding_scanLine hdir hsplit)
  · intro i l l' hl hl' hne
    obtain ⟨before, raw, after, hsplit, hbefore, rfl, hraw, rfl⟩ := hpair hl hl'
    -- the lines before it are read as the scan saw them
    rw [List.map_take, hdecode, ← hbefore]
    exact redirected_of_ne (hlines raw (by simp [hsplit])) hraw rfl fun he => hne (by rw [he])

/-- **A pass keeps the lines of its input.**  Its text has bytes, which are what is saved, and
    they differ from those of the input in redirected lines only. -/
theorem pass_keepsLines {s : Store} {r : Request} {report : Report}
    (hdir : Text.Unbroken r.outputDir) (h : (pass s r).outcome = .ok report) :
    ∃ bytes out, s.read r.input = .ok bytes ∧ Utf8.encode report.text = .ok out ∧
      (∀ s₁ path s₂, save s₁ path report.text = .ok s₂ → s₂.read path = .ok out) ∧
      KeepsLines r.dialect bytes out := by
  obtain ⟨bytes, _, _, hread, _, _, hreport⟩ := pass_spec h
  have hdir' : Text.Unbroken r.options.outputDir := unbroken_iff.mpr <|
    graphic_unbroken.withoutTrailing (graphic_unbroken.normalize (unbroken_iff.mp hdir))
  have henc := encodable_outputDir h
  have hout : Encodable report.text := by
    rw [hreport]
    exact encodable_scanLines henc
      (Utf8.encodable_of_mem_rawLines (Utf8.encodable_decodeEscaping bytes))
  have hok : Utf8.encode report.text = .ok (bytesOf report.text) :=
    Utf8.encode_eq_ok_iff.mpr ⟨hout, rfl⟩
  refine ⟨bytes, bytesOf report.text, hread, hok, fun _ _ _ => read_save hok, ?_⟩
  rw [hreport]
  exact keepsLines_scanLines hdir' henc bytes

/-- A database with three kinds of endings and a byte that is no character. -/
def sampleInput : List UInt8 :=
  bytesOf "[\x7b\"file\": \"a.cpp\",\r\"command\": \"\\\"clang++\\\" -c a.cpp\",\r\n\"note\": \"" ++
    0xff :: bytesOf "\"\x7d]\n"

/-- A store that holds the database. -/
def sampleStore : Store := ⟨[], [(["in"], .file sampleInput none)]⟩

/-- A pass over the database. -/
def sampleRequest : Request := ⟨"in", "out", "/engine", false, .clang, false⟩

/-- The pass over the sample comes to an end and keeps its lines. -/
theorem pass_keepsLines_sample :
    Text.Unbroken sampleRequest.outputDir ∧
      ∃ report bytes out, (pass sampleStore sampleRequest).outcome = .ok report ∧
        sampleStore.read "in" = .ok bytes ∧ Utf8.encode report.text = .ok out ∧
        KeepsLines .clang bytes out := by
  have hdir : Text.Unbroken sampleRequest.outputDir := ⟨by decide, by decide⟩
  have hok : (pass sampleStore sampleRequest).outcome.isOk = true := by decide +kernel
  cases h : (pass sampleStore sampleRequest).outcome with
  | error e =>
    rw [h] at hok
    cases hok
  | ok report =>
    obtain ⟨bytes, out, hread, hout, _, hkeeps⟩ := pass_keepsLines hdir h
    exact ⟨hdir, report, bytes, out, rfl, hread, hout, hkeeps⟩

end Database

end ClangDb
