import ClangDb.Proofs.Database.CommandLine
import ClangDb.Proofs.Database.Lockstep
import ClangDb.Proofs.Database.Pass
import ClangDb.Proofs.Database.Scan
import Mathlib.Data.List.Forall2

/-! # Which records stay valid

    A redirected line ends in a quote and a comma, whatever followed the command
    on it.  So the records of a database stay what they were if each command that
    is redirected was followed by a comma and by nothing else on its line, and
    they do not if one was the last member of its record or shared its line with
    another member.

    Key theorems:
    - `exists_recast`: what a scan gives is a recast form of its text,
    - `pass_keepsRecords`: a comma after each command is enough, and it is needed.
-/

namespace ClangDb

namespace Database

open Json
open Utf8 (decodeEscaping)

variable {o : Options} {s : State} {raw : Text}

/-- The contents of the lines that a scan redirects. -/
def redirectedLines (o : Options) : State → List Text → List Text
  | _, [] => []
  | s, raw :: more =>
    (if (redirect? o s raw).isSome then [(Text.splitEnding raw).1] else []) ++
      redirectedLines o (nextState s raw) more

/-- Holds of lines each of which, if it is redirected, holds the whole of its command. -/
def HoldsCommands (o : Options) (lines : List Text) : Prop :=
  ∀ line ∈ redirectedLines o .initial lines, (afterCommand? o.dialect line).isSome = true

/-- Holds of a line that holds the whole of its command with a comma behind it and nothing
    else.  If it is given a file in the output folder, the folder holds no control. -/
def IsSound (o : Options) (line : Text) : Prop :=
  ∃ rest ∈ afterCommand? o.dialect line, IsComma rest ∧
    (isInline o.dialect line = true → Clean o.outputDir)

instance : DecidablePred Clean := fun s => inferInstanceAs (Decidable (∀ c ∈ s, _))

instance : DecidablePred (IsSound o) := fun line =>
  inferInstanceAs (Decidable (∃ rest ∈ afterCommand? o.dialect line, _))

/-- Holds of lines that are sound wherever they are redirected. -/
def AreSound (o : Options) (lines : List Text) : Prop :=
  ∀ line ∈ redirectedLines o .initial lines, IsSound o line

instance (lines : List Text) : Decidable (HoldsCommands o lines) :=
  inferInstanceAs (Decidable (∀ line ∈ redirectedLines o .initial lines, _))

instance (lines : List Text) : Decidable (AreSound o lines) :=
  inferInstanceAs (Decidable (∀ line ∈ redirectedLines o .initial lines, _))

/-! ### Lines of pieces -/

/-- Pieces may be cut around the ending of a line. -/
theorem pieces_cut_ending {l e x : Text}
    (he : Lines.IsEnding (CodePoint.char '\n') (.char '\r') e) (hp : Pieces (l ++ (e ++ x))) :
    Pieces l ∧ Pieces x ∧ ∀ c ∈ e, c ≠ .char '"' := by
  cases he with
  | feed =>
    obtain ⟨hl, hx⟩ := hp.cut rfl (by decide)
    exact ⟨hl, hx, by decide⟩
  | «return» =>
    obtain ⟨hl, hx⟩ := hp.cut rfl (by decide)
    exact ⟨hl, hx, by decide⟩
  | both =>
    obtain ⟨hl, hrest⟩ := hp.cut rfl (by decide)
    exact ⟨hl, hrest.of_append (a := [.char '\n']) (by decide), by decide⟩

theorem splitEnding_fst {l e : Text} (h : (Text.splitEnding (l ++ e)).2 = e) :
    (Text.splitEnding (l ++ e)).1 = l := by
  have := Text.splitEnding_append (l ++ e)
  rw [h] at this
  exact List.append_cancel_right this

/-- The contents of lines of pieces are pieces. -/
theorem pieces_of_areLines {more : List Text}
    (h : Lines.AreLines (CodePoint.char '\n') (.char '\r') (raw :: more))
    (hp : Pieces (raw ++ more.flatten)) :
    Lines.AreLines (CodePoint.char '\n') (.char '\r') more ∧ Pieces more.flatten ∧
      Pieces (Text.splitEnding raw).1 ∧ ∀ c ∈ (Text.splitEnding raw).2, c ≠ .char '"' := by
  cases h with
  | last _ hu =>
    have hsnd : (Text.splitEnding (raw ++ [])).2 = [] := by
      rw [List.append_nil, Text.splitEnding_snd, Lines.ending_of_unbroken hu]
    have hfst := splitEnding_fst hsnd
    rw [List.append_nil] at hsnd hfst
    rw [hfst, hsnd]
    exact ⟨.nil, .nil, by simpa using hp, List.forall_mem_nil _⟩
  | @cons l e more hu he _ hmore =>
    have hsnd : (Text.splitEnding (l ++ e)).2 = e := by
      rw [Text.splitEnding_snd, Lines.ending_append hu he]
    rw [List.append_assoc] at hp
    obtain ⟨hl, hrest, hquote⟩ := pieces_cut_ending he hp
    rw [splitEnding_fst hsnd, hsnd]
    exact ⟨hmore, hrest, hl, hquote⟩

/-! ### A scan recasts its text -/

/-- The file that the scan stands at holds no control. -/
theorem clean_nextState (hp : Pieces (Text.splitEnding raw).1) (hs : Clean s.currentFile) :
    Clean (nextState s raw).currentFile := by
  unfold nextState
  split
  · exact hs
  · split
    · next file hfile =>
      unfold fileOn? at hfile
      split at hfile
      · cases hfile
      · exact clean_of_fileValue? hp hfile
    · exact hs

/-- Holds of a rewrite and of the line that it is made on. -/
def RewriteOn (o : Options) (w : Rewrite) (line : Text) : Prop :=
  afterCommand? o.dialect line = some w.drop ∧
    (Light w.drop → (Spelled w.body' ↔ (isInline o.dialect line = true → Clean o.outputDir)))

/-- What becomes of a line is a recast form of it. -/
theorem recast_scanLine (hp : Pieces (Text.splitEnding raw).1)
    (hending : ∀ c ∈ (Text.splitEnding raw).2, c ≠ .char '"') (hs : Clean s.currentFile)
    (hwhole : (redirect? o s raw).isSome →
      (afterCommand? o.dialect (Text.splitEnding raw).1).isSome) :
    ∃ ws : List Rewrite, Recast ws raw (scanLine o s raw).line ∧ List.Forall₂ (RewriteOn o) ws
      (if (redirect? o s raw).isSome then [(Text.splitEnding raw).1] else []) := by
  have hnil : Recast [] (Text.splitEnding raw).2 (Text.splitEnding raw).2 := by
    have := Recast.append_left hending .nil
    rwa [List.append_nil] at this
  have hparts := Text.splitEnding_append raw
  rw [scanLine_line]
  cases hredirect : redirect? o s raw with
  | none =>
    -- the line is copied
    have hself := (Recast.of_pieces hp).append hnil
    rw [hparts] at hself
    exact ⟨[], hself, .nil⟩
  | some found =>
    obtain ⟨line, job⟩ := found
    -- the line is redirected, which rewrites its command
    obtain ⟨rest, hrest⟩ := Option.isSome_iff_exists.mp (hwhole (by rw [hredirect]; rfl))
    obtain ⟨_, _, hcommand⟩ := redirect?_spec hredirect
    obtain ⟨w, indent, rfl, hindent, hold, hnew, hspelled⟩ :=
      exists_rewrite hcommand hrest hp hs
    have hline := ((Recast.of_pieces hindent).append (.command w .nil)).append hnil
    rw [← hold, ← hnew, hparts] at hline
    exact ⟨[w], hline, .cons ⟨hrest, hspelled⟩ .nil⟩

/-- **What a scan gives is a recast form of its text**, with a rewrite for each line that is
    redirected. -/
theorem exists_recast {lines : List Text}
    (hlines : Lines.AreLines (CodePoint.char '\n') (.char '\r') lines)
    (hp : Pieces lines.flatten) (hs : Clean s.currentFile)
    (hwhole : ∀ line ∈ redirectedLines o s lines, (afterCommand? o.dialect line).isSome = true) :
    ∃ ws : List Rewrite, Recast ws lines.flatten (scanLines o s lines).lines.flatten ∧
      List.Forall₂ (RewriteOn o) ws (redirectedLines o s lines) := by
  induction lines generalizing s with
  | nil => exact ⟨[], .nil, .nil⟩
  | cons raw more ih =>
    -- the first line is cut off, and the rest is scanned from the state that it leaves
    obtain ⟨hmore, hpmore, hpraw, hending⟩ := pieces_of_areLines hlines hp
    simp only [redirectedLines, List.forall_mem_append] at hwhole
    have hraw : (redirect? o s raw).isSome →
        (afterCommand? o.dialect (Text.splitEnding raw).1).isSome := by
      intro h
      exact hwhole.1 _ (by rw [if_pos h]; exact List.mem_singleton_self _)
    obtain ⟨ws, hline, hws⟩ := recast_scanLine hpraw hending hs hraw
    obtain ⟨ws', hrest, hws'⟩ := ih hmore hpmore (clean_nextState hpraw hs) hwhole.2
    refine ⟨ws ++ ws', ?_, List.rel_append hws hws'⟩
    simp only [scanLines, List.flatten_cons, scanLine_state]
    exact hline.append hrest

/-- A rewrite fits if and only if its line is sound. -/
theorem fits_iff {w : Rewrite} {line : Text} (h : RewriteOn o w line) :
    w.Fits ↔ IsSound o line := by
  obtain ⟨hdrop, hspelled⟩ := h
  constructor
  · rintro ⟨hcomma, hbody⟩
    exact ⟨w.drop, hdrop, hcomma, (hspelled hcomma.light).mp hbody⟩
  · rintro ⟨rest, hrest, hcomma, hdir⟩
    obtain rfl := Option.some.inj (hdrop.symm.trans hrest)
    exact ⟨hcomma, (hspelled hcomma.light).mpr hdir⟩

theorem forall_fits_iff {ws : List Rewrite} {lines : List Text}
    (h : List.Forall₂ (RewriteOn o) ws lines) :
    (∀ w ∈ ws, w.Fits) ↔ ∀ line ∈ lines, IsSound o line := by
  induction h with
  | nil => simp
  | cons h _ ih => rw [List.forall_mem_cons, List.forall_mem_cons, fits_iff h, ih]

/-! ### Records -/

variable {text : Text} {records : List Json}

/-- Holds of a text that is read as records that are the same but for their commands. -/
def KeepsRecords (records : List Json) (text : Text) : Prop :=
  ∃ records', Json.read text = .ok (.array records') ∧
    List.Forall₂ (SameRecord commandName) records records'

/-- A scan recasts a document, and all rewrites fit if the lines are sound. -/
theorem scan_recast (hjson : Document AnyKeys text (.array records))
    (hwhole : HoldsCommands o (Text.rawLines text)) :
    ∃ ws : List Rewrite,
      Recast ws text (scanLines o .initial (Text.rawLines text)).lines.flatten ∧
        ((∀ w ∈ ws, w.Fits) ↔ AreSound o (Text.rawLines text)) := by
  have hlines := Lines.areLines_cut Text.feed_ne_return text
  rw [← Text.rawLines_eq_cut] at hlines
  have hp : Pieces (Text.rawLines text).flatten := by
    rw [Text.flatten_rawLines]
    exact hjson.pieces
  obtain ⟨ws, hrecast, hws⟩ :=
    exists_recast hlines hp (s := .initial) (List.forall_mem_nil _) hwhole
  rw [Text.flatten_rawLines] at hrecast
  exact ⟨ws, hrecast, forall_fits_iff hws⟩

/-- Flat records stay the same if the lines are sound. -/
theorem scan_keepsRecords (hjson : Json.read text = .ok (.array records))
    (hflat : ∀ v ∈ records, v.isFlat commandName = true)
    (hsound : AreSound o (Text.rawLines text)) :
    KeepsRecords records (scanLines o .initial (Text.rawLines text)).lines.flatten := by
  have hdocument := read_eq_ok_iff.mp hjson
  have hwhole : HoldsCommands o (Text.rawLines text) := by
    intro line hline
    obtain ⟨rest, hrest, _⟩ := hsound line hline
    rw [hrest]
    rfl
  obtain ⟨ws, hrecast, hfits⟩ := scan_recast hdocument hwhole
  have hall := hfits.mpr hsound
  have hlight : ∀ w ∈ ws, Light w.drop := fun w hw => (hall w hw).1.light
  rcases document_recast hdocument hrecast hlight with ⟨_, v', hv', halike⟩ | ⟨_, w, hw, hunfit⟩
  · cases halike with
    | same =>
      exact ⟨records, read_eq_ok_iff.mpr hv', sameRecords_of_alike (.same _) hflat⟩
    | array halike =>
      exact ⟨_, read_eq_ok_iff.mpr hv', sameRecords_of_alike halike hflat⟩
  · exact absurd (hall w hw) hunfit

/-- Lines that hold their commands are sound if the records stay the same. -/
theorem areSound_of_keepsRecords (hjson : Document List.Nodup text (.array records))
    (hwhole : HoldsCommands o (Text.rawLines text))
    (hkeeps : KeepsRecords records (scanLines o .initial (Text.rawLines text)).lines.flatten) :
    AreSound o (Text.rawLines text) := by
  obtain ⟨records', hread, hsame⟩ := hkeeps
  have hread' := read_eq_ok_iff.mp hread
  obtain ⟨ws, hrecast, hfits⟩ := scan_recast hjson.anyKeys hwhole
  -- nothing that has a weight is missing, so no drop has a tally
  have hdrops : (ws.map fun w => tallyOf w.drop).sum = 0 := by
    have htally := hrecast.tallyOf_eq
    have hle := hread'.weight_le
    rw [weight_array_eq hsame, ← hjson.tally_eq] at hle
    omega
  have hlight : ∀ w ∈ ws, Light w.drop := by
    intro w hw
    apply w.pieces.light
    exact List.sum_eq_zero_iff_forall_eq_nat.mp hdrops _ (List.mem_map_of_mem hw)
  rcases document_recast hjson.anyKeys hrecast hlight with ⟨hall, _⟩ | ⟨hnone, _⟩
  · exact hfits.mp hall
  · exact absurd hread' (hnone _)

/-- **When a pass keeps the records of its input.**  Let the input be an array of objects.  If
    the command is a key of these objects alone and every line that is redirected is sound, the
    text of the pass is an array of as many objects with the same keys in the same order, and
    with the same values but for the texts of commands.  If no object repeats a key and every
    line that is redirected holds the whole of its command, the text is no such array unless
    all these lines are sound. -/
theorem pass_keepsRecords {s : Store} {r : Request} {report : Report} {bytes : List UInt8}
    (hok : (pass s r).outcome = .ok report) (hread : s.read r.input = .ok bytes)
    (hjson : Json.read (decodeEscaping bytes) = .ok (.array records)) :
    ((∀ v ∈ records, v.isFlat commandName = true) →
      AreSound r.options (Text.rawLines (decodeEscaping bytes)) →
      KeepsRecords records report.text) ∧
    (Document List.Nodup (decodeEscaping bytes) (.array records) →
      HoldsCommands r.options (Text.rawLines (decodeEscaping bytes)) →
      KeepsRecords records report.text →
      AreSound r.options (Text.rawLines (decodeEscaping bytes))) := by
  obtain ⟨bytes', _, _, hread', _, _, rfl⟩ := pass_spec hok
  obtain rfl := Except.ok.inj (hread.symm.trans hread')
  constructor
  · intro hflat hsound
    exact scan_keepsRecords hjson hflat hsound
  · intro hdistinct hwhole hkeeps
    exact areSound_of_keepsRecords hdistinct hwhole hkeeps

/-- A store with a database. -/
def recordsStore (text : Text) : Store := ⟨[], [(["in"], .file (Utf8.bytesOf text) none)]⟩

/-- A pass over the database. -/
def recordsRequest : Request := ⟨"in", "out", "/engine", false, .clang, false⟩

/-- A database with a key behind its command. -/
def soundText : Text :=
  "[\x7b\"file\": \"a.cpp\",\n\"command\": \"\\\"clang++\\\" -c\" , \n\"n\": 1\x7d]\n"

/-- A database with a command behind all other keys. -/
def lastText : Text :=
  "[\x7b\"file\": \"a.cpp\",\n\"command\": \"\\\"clang++\\\" -c\"\n\x7d]\n"

/-- The elements of an array that was read. -/
def elementsRead? : Except ReadError Json → Option (List Json)
  | .ok (.array vs) => some vs
  | _ => none

theorem eq_of_elementsRead? {result : Except ReadError Json} {vs : List Json}
    (h : elementsRead? result = some vs) : result = .ok (.array vs) := by
  unfold elementsRead? at h
  split at h
  · rw [Option.some.inj h]
  · cases h

/-- The records of the first database are kept, and those of the second are not. -/
theorem pass_keepsRecords_sample :
    (∃ report records, (pass (recordsStore soundText) recordsRequest).outcome = .ok report ∧
      Json.read soundText = .ok (.array records) ∧ KeepsRecords records report.text) ∧
    ∃ report records, (pass (recordsStore lastText) recordsRequest).outcome = .ok report ∧
      Json.read lastText = .ok (.array records) ∧ ¬ KeepsRecords records report.text := by
  constructor
  · have hok : (pass (recordsStore soundText) recordsRequest).outcome.isOk = true := by
      decide +kernel
    have hflat : (elementsRead? (Json.read soundText)).map
        (fun vs => vs.all fun v => v.isFlat commandName) = some true := by decide +kernel
    have hread : (recordsStore soundText).read recordsRequest.input =
        .ok (Utf8.bytesOf soundText) := rfl
    have hdecode : decodeEscaping (Utf8.bytesOf soundText) = soundText := by decide +kernel
    have hsound : AreSound recordsRequest.options (Text.rawLines soundText) := by decide +kernel
    cases hpass : (pass (recordsStore soundText) recordsRequest).outcome with
    | error e =>
      rw [hpass] at hok
      cases hok
    | ok report =>
      obtain ⟨vs, helements, hall⟩ := Option.map_eq_some_iff.mp hflat
      have hjson := eq_of_elementsRead? helements
      have hkeeps := (pass_keepsRecords hpass hread (hdecode.symm ▸ hjson)).1
        (by simpa using hall) (hdecode.symm ▸ hsound)
      exact ⟨report, vs, rfl, hjson, hkeeps⟩
  · have hok : (pass (recordsStore lastText) recordsRequest).outcome.isOk = true := by
      decide +kernel
    have hweight : (elementsRead? (Json.read lastText)).map
        (fun vs => decide (tallyOf lastText = (Json.array vs).weight)) = some true := by
      decide +kernel
    have hread : (recordsStore lastText).read recordsRequest.input =
        .ok (Utf8.bytesOf lastText) := rfl
    have hdecode : decodeEscaping (Utf8.bytesOf lastText) = lastText := by decide +kernel
    have hwhole : HoldsCommands recordsRequest.options (Text.rawLines lastText) := by
      decide +kernel
    have hunsound : ¬ AreSound recordsRequest.options (Text.rawLines lastText) := by
      decide +kernel
    cases hpass : (pass (recordsStore lastText) recordsRequest).outcome with
    | error e =>
      rw [hpass] at hok
      cases hok
    | ok report =>
      obtain ⟨vs, helements, htally⟩ := Option.map_eq_some_iff.mp hweight
      have hjson := eq_of_elementsRead? helements
      have hdistinct : Document List.Nodup lastText (.array vs) :=
        document_nodup_iff.mpr ⟨read_eq_ok_iff.mp hjson, of_decide_eq_true htally⟩
      refine ⟨report, vs, rfl, hjson, fun hkeeps => hunsound ?_⟩
      have := (pass_keepsRecords hpass hread (hdecode.symm ▸ hjson)).2
        (hdecode.symm ▸ hdistinct) (hdecode.symm ▸ hwhole) hkeeps
      rwa [hdecode] at this

end Database

end ClangDb
