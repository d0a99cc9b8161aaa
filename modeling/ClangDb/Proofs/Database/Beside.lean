import ClangDb.Database.Pass
import ClangDb.Proofs.Database.Schedule
import ClangDb.Proofs.ResponseFile.Kept

/-! # Arguments beside a reference

    The arguments of an inline command go into the response file that is made for
    it, each in its edited form.  A command that refers to a response file, with a
    reference anywhere behind its compiler, is cut down to the compiler and the
    reference: two commands that share both become the same line and have the same
    job, whatever other arguments they hold.  So those are in neither.

    Key theorems:
    - `redirectCommand_copy`: a command that refers to a response file,
    - `arguments_of_redirected`: where the arguments of a command go.
-/

namespace ClangDb

namespace Database

open Arguments (StandsIn Edits IsEnd spell mark exists_edit_of_standsIn)

variable {o : Options} {file line line' path : Text} {job : Job} {c : Command}

/-- The path of the first reference in the tail of a command. -/
def referenced? (tail : Text) : Option Text := do
  let (_, rest) ← Text.cut? reference tail
  let (path, _) ← Text.cut? escapedQuote rest
  return path

theorem referenced?_eq_some_iff {tail : Text} :
    referenced? tail = some path ↔ ∃ before rest after,
      Text.cut? reference tail = some (before, rest) ∧
      Text.cut? escapedQuote rest = some (path, after) := by
  simp only [referenced?, bind, Option.bind_eq_some_iff, Prod.exists, pure, Option.some.injEq]
  constructor
  · rintro ⟨before, rest, hcut, path', after, hquote, rfl⟩
    exact ⟨before, rest, after, hcut, hquote⟩
  · rintro ⟨before, rest, after, hcut, hquote⟩
    exact ⟨before, rest, hcut, path, after, hquote, rfl⟩

/-- **What becomes of a command that refers to a response file** is told by its indent, its
    compiler and the path. -/
theorem redirectCommand_copy (hc : Command.ofLine? o.dialect line = some c)
    (hpath : referenced? c.tail = some path) :
    redirectCommand o file line =
      .redirected (c.lead (o.copyJob file (Path.normalize path)).path ++ "\",")
        (o.copyJob file (Path.normalize path)) := by
  obtain ⟨before, rest, after, hcut, hquote⟩ := referenced?_eq_some_iff.mp hpath
  simp only [redirectCommand, hc, hcut, hquote]
  rfl

/-- **Where the arguments of a command go.**  Those of an inline command are in its response file,
    each in its edited form.  Where a command refers to a response file, every command with the
    same compiler and the same reference becomes the same line and has the same job, so that its
    other arguments are dropped. -/
theorem arguments_of_redirected {s : State} {raw : Text} (hskip : o.skipEngine = false)
    (h : redirect? o s raw = some (line', job)) :
    (scanLine o s raw).line = line' ++ (Text.splitEnding raw).2 ∧
    (scanLine o s raw).job = some job ∧
    ∃ c, Command.ofLine? o.dialect (Text.splitEnding raw).1 = some c ∧
      ((c.tail.contains reference = false ∧
          (∀ made, job.content.render made = .ok (Arguments.body c.tail)) ∧
          ∀ gs t arg, c.tail = spell gs ++ t → (∀ g ∈ gs, g.Sound ∧ g ≠ .quote) → IsEnd t →
            c.tail.contains mark = false → StandsIn arg gs →
            ∃ q s', Edits q arg s' ∧ s' <:+: Arguments.body c.tail) ∨
        ∃ path, referenced? c.tail = some path ∧
          ∀ line₂ c₂, Command.ofLine? o.dialect line₂ = some c₂ → c₂.indent = c.indent →
            c₂.compiler = c.compiler → referenced? c₂.tail = some path →
            redirectCommand o s.currentFile line₂ = .redirected line' job) := by
  obtain ⟨_, _, hredirected⟩ := redirect?_spec h
  obtain ⟨c, _, hc, hjob, _⟩ := isJobOf_of_redirectCommand hredirected
  have hkept : o.skips s.currentFile = false := by
    rw [Options.skips, hskip, Bool.and_false]
  refine ⟨?_, ?_, c, hc, ?_⟩
  · rw [scanLine_line, h]
  · rw [scanLine_job, h, hkept]
    rfl
  · cases hjob with
    | inline hcut =>
      refine .inl ⟨by rw [Text.contains, hcut]; rfl, fun _ => rfl, ?_⟩
      intro gs t arg htail hgs ht hfree harg
      rw [htail] at hfree ⊢
      exact exists_edit_of_standsIn hgs ht hfree harg
    | @copy before rest path after hcut hquote =>
      have hpath : referenced? c.tail = some path :=
        referenced?_eq_some_iff.mpr ⟨before, rest, after, hcut, hquote⟩
      have hline := (Outcome.redirected.inj
        (hredirected.symm.trans (redirectCommand_copy hc hpath))).1
      refine .inr ⟨path, hpath, ?_⟩
      -- the new line is made of nothing that the two commands do not share
      intro line₂ c₂ hc₂ hindent hcompiler hpath₂
      rw [redirectCommand_copy hc₂ hpath₂, hline, Command.lead, Command.lead, hindent, hcompiler]

/-- A pass over entries of all kinds. -/
def besideOptions : Options := ⟨"out", "/e", false, .clang, false⟩

/-- The source file is known. -/
def besideState : State := ⟨.command, "/a.c"⟩

/-- A command with an argument on each side of a reference. -/
def besideCommand : Text := "\"command\": \"\\\"clang++\\\" -DA @\\\"x.rsp\\\" -DB\",\n"

/-- The same command without the two. -/
def aloneCommand : Text := "\"command\": \"\\\"clang++\\\" @\\\"x.rsp\\\"\","

theorem arguments_of_redirected_beside :
    ∃ line' job, redirect? besideOptions besideState besideCommand = some (line', job) ∧
      redirectCommand besideOptions "/a.c" aloneCommand = .redirected line' job := by
  have hredirect : redirect? besideOptions besideState besideCommand =
      some (Text.ofString "\"command\": \"\\\"clang++\\\" @\\\"x.rsp.clang.rsp\\\"\",",
        besideOptions.copyJob "/a.c" "x.rsp") := by
    decide +kernel
  have hbeside : Command.ofLine? .clang (Text.splitEnding besideCommand).1 =
      some ⟨[], "\"\\\"clang++\\\"", " -DA @\\\"x.rsp\\\" -DB\","⟩ := by
    decide +kernel
  have halone : Command.ofLine? .clang aloneCommand =
      some ⟨[], "\"\\\"clang++\\\"", " @\\\"x.rsp\\\"\","⟩ := by
    decide +kernel
  obtain ⟨_, _, c, hc, hargs⟩ := arguments_of_redirected (o := besideOptions) rfl hredirect
  obtain rfl := Option.some.inj (hc.symm.trans hbeside)
  refine ⟨_, _, hredirect, ?_⟩
  rcases hargs with ⟨hnone, _⟩ | ⟨path, hpath, hsame⟩
  · exact absurd hnone (by decide +kernel)
  · obtain rfl := Option.some.inj (hpath.symm.trans
      (by decide +kernel : _ = some (Text.ofString "x.rsp")))
    exact hsame aloneCommand _ halone rfl rfl (by decide +kernel)

end Database

end ClangDb
