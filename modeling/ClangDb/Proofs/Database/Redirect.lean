import ClangDb.Database.Scan
import ClangDb.Proofs.Text.Occurrence

/-! # What a redirected line is made of

    A redirected line begins as the old one did, up to its compiler, and goes on
    with the path of a response file.  Its code points come from the old line,
    the name of the source file and the output folder, or they are graphic
    characters.

    Key theorems:
    - `redirectCommand_spec`: the two kinds of redirected lines,
    - `prefix_of_redirectCommand`: the beginning that is kept,
    - `forall_mem_redirectCommand`: the code points.
-/

namespace ClangDb

namespace Database

/-! ### The two kinds of lines -/

/-- What is known of a command line whose compiler is found. -/
theorem Command.ofLine?_spec {dialect : Dialect} {line : Text} {c : Command}
    (h : Command.ofLine? dialect line = some c) :
    ∃ value before, Text.cut? commandKey line = some (c.indent, value) ∧
      Text.cut? dialect.compilerEnd value = some (before, c.tail) ∧
      c.compiler = (before ++ dialect.compilerEnd).trim := by
  simp only [Command.ofLine?, bind, Option.bind_eq_some_iff] at h
  obtain ⟨⟨indent, value⟩, hkey, ⟨before, tail⟩, hcompiler, heq⟩ := h
  obtain rfl := Option.some.inj heq
  exact ⟨value, before, hkey, hcompiler, rfl⟩

/-- A redirected line points at a copy of the response file that it pointed at, or at one
    made for its arguments. -/
theorem redirectCommand_spec {o : Options} {file line line' : Text} {job : Job}
    (h : redirectCommand o file line = .redirected line' job) :
    ∃ c, Command.ofLine? o.dialect line = some c ∧ job.sourceFile = file ∧
      ((∃ before rest referenced after, Text.cut? reference c.tail = some (before, rest) ∧
          Text.cut? escapedQuote rest = some (referenced, after) ∧
          job.path = copyName o.dialect (Path.normalize referenced) ∧
          line' = c.lead job.path ++ "\",") ∨
        (Text.cut? reference c.tail = none ∧ job.path = o.outputDir ++ "/" ++ flatName file ∧
          line' = c.lead job.path ++ " " ++ Path.escape file ++ "\",")) := by
  unfold redirectCommand at h
  split at h
  · cases h
  · next c hc =>
    split at h
    · next before rest hcut =>
      split at h
      · cases h
      · next referenced after hquote =>
        obtain ⟨rfl, rfl⟩ := Outcome.redirected.inj h
        exact ⟨c, hc, rfl, .inl ⟨before, rest, referenced, after, hcut, hquote, rfl, rfl⟩⟩
    · next hcut =>
      obtain ⟨rfl, rfl⟩ := Outcome.redirected.inj h
      exact ⟨c, hc, rfl, .inr ⟨hcut, rfl, rfl⟩⟩

/-- A line and its redirected form begin alike, up to and including the key. -/
theorem prefix_of_redirectCommand {o : Options} {file line line' : Text} {job : Job} {c : Command}
    (h : redirectCommand o file line = .redirected line' job)
    (hc : Command.ofLine? o.dialect line = some c) :
    c.indent ++ commandKey <+: line ∧ c.indent ++ commandKey <+: line' := by
  constructor
  · obtain ⟨value, _, hkey, _⟩ := Command.ofLine?_spec hc
    exact ⟨value, by rw [Text.eq_of_cut? hkey, List.append_assoc]⟩
  · obtain ⟨c', hc', _, hline⟩ := redirectCommand_spec h
    obtain rfl := Option.some.inj (hc'.symm.trans hc)
    rcases hline with ⟨_, _, _, _, _, _, _, rfl⟩ | ⟨_, _, rfl⟩
    · simp only [Command.lead, List.append_assoc, List.prefix_append_right_inj,
        List.prefix_append]
    · simp only [Command.lead, List.append_assoc, List.prefix_append_right_inj,
        List.prefix_append]

/-! ### Code points -/

section points

/-- Holds of a property that all characters but controls have. -/
def Graphic (P : CodePoint → Prop) : Prop := ∀ d : Char, ' ' ≤ d → P (.char d)

variable {P : CodePoint → Prop} {s t : Text}

theorem forall_mem_append (hs : ∀ c ∈ s, P c) (ht : ∀ c ∈ t, P c) : ∀ c ∈ s ++ t, P c := by
  intro c hc
  exact (List.mem_append.mp hc).elim (hs c) (ht c)

theorem Graphic.ofString (hP : Graphic P) {w : String} (h : w.toList.all (' ' ≤ ·) = true) :
    ∀ c ∈ Text.ofString w, P c := by
  intro c hc
  obtain ⟨d, hd, rfl⟩ := List.mem_map.mp hc
  exact hP d (of_decide_eq_true (List.all_eq_true.mp h d hd))

theorem forall_mem_replaceAll (pat : Text) {new : Text} (hs : ∀ c ∈ s, P c)
    (hnew : ∀ c ∈ new, P c) :
    ∀ c ∈ s.replaceAll pat new, P c := by
  intro c hc
  exact (Text.mem_replaceAll hc).elim (hs c) (hnew c)

theorem forall_mem_substitute {old new : CodePoint} (hs : ∀ c ∈ s, P c) (hnew : P new) :
    ∀ c ∈ s.substitute old new, P c := by
  intro c hc
  rcases Text.mem_substitute hc with ⟨h, _⟩ | rfl
  · exact hs c h
  · exact hnew

theorem mem_of_mem_collapse {c : CodePoint} (h : c ∈ Path.collapse s) : c ∈ s := by
  induction s with
  | nil => exact h
  | cons d r ih =>
    rw [Path.collapse] at h
    split at h
    · exact List.mem_cons_of_mem _ (ih h)
    · rcases List.mem_cons.mp h with rfl | h
      · exact List.mem_cons_self
      · exact List.mem_cons_of_mem _ (ih h)

theorem Graphic.normalize (hP : Graphic P) (hs : ∀ c ∈ s, P c) :
    ∀ c ∈ Path.normalize s, P c := by
  intro c hc
  exact forall_mem_substitute hs (hP '/' (by decide)) c (mem_of_mem_collapse hc)

theorem Graphic.withoutTrailing (hP : Graphic P) (hs : ∀ c ∈ s, P c) :
    ∀ c ∈ Path.withoutTrailing s, P c := by
  unfold Path.withoutTrailing
  split
  · exact hP.ofString (by decide)
  · intro c hc
    exact hs c (Text.mem_of_mem_trimRight hc)

theorem Graphic.escape (hP : Graphic P) (hs : ∀ c ∈ s, P c) : ∀ c ∈ Path.escape s, P c := by
  have hslash : ∀ d ∈ (("/" : String) : Text), P d := hP.ofString (by decide)
  have hs' := forall_mem_replaceAll "\\\\" hs hslash
  exact forall_mem_replaceAll _ (forall_mem_substitute hs' (hP '/' (by decide)))
    (hP.ofString (by decide))

theorem Graphic.copyName (hP : Graphic P) (hs : ∀ c ∈ s, P c) (dialect : Dialect) :
    ∀ c ∈ copyName dialect s, P c := by
  cases dialect with
  | msvc => exact forall_mem_append hs (hP.ofString (by decide))
  | clang =>
    simp only [Database.copyName]
    split
    · exact forall_mem_append hs (hP.ofString (by decide))
    · exact forall_mem_append hs (hP.ofString (by decide))

theorem Graphic.flatName (hP : Graphic P) (hs : ∀ c ∈ s, P c) : ∀ c ∈ flatName s, P c := by
  have hslash : ∀ d ∈ (("/" : String) : Text), P d := hP.ofString (by decide)
  have hs' := forall_mem_replaceAll "\\\\" hs hslash
  refine forall_mem_append ?_ (hP.ofString (by decide))
  refine forall_mem_substitute (forall_mem_substitute ?_ (hP '/' (by decide))) (hP '_' (by decide))
  intro c hc
  exact hs' c (List.mem_filter.mp hc).1

theorem Graphic.lead (hP : Graphic P) {c : Command} (hindent : ∀ d ∈ c.indent, P d)
    (hcompiler : ∀ d ∈ c.compiler, P d) (hs : ∀ d ∈ s, P d) : ∀ d ∈ c.lead s, P d := by
  have hkey : ∀ d ∈ commandKey, P d := hP.ofString (by decide)
  have hblank : ∀ d ∈ ((" " : String) : Text), P d := hP.ofString (by decide)
  have hopen : ∀ d ∈ ((" @\\\"" : String) : Text), P d := hP.ofString (by decide)
  have hclose : ∀ d ∈ (("\\\"" : String) : Text), P d := hP.ofString (by decide)
  exact forall_mem_append (forall_mem_append (forall_mem_append (forall_mem_append
    (forall_mem_append (forall_mem_append hindent hkey) hblank) hcompiler) hopen)
    (hP.escape hs)) hclose

/-- A redirected line is made of code points of the old line, of the file and of the
    output folder, and of graphic characters. -/
theorem forall_mem_redirectCommand (hP : Graphic P) {o : Options} {file line line' : Text}
    {job : Job} (h : redirectCommand o file line = .redirected line' job)
    (hline : ∀ c ∈ line, P c) (hfile : ∀ c ∈ file, P c) (hdir : ∀ c ∈ o.outputDir, P c) :
    ∀ c ∈ line', P c := by
  obtain ⟨c, hc, _, hkind⟩ := redirectCommand_spec h
  obtain ⟨value, before, hkey, hend, hcompiler⟩ := Command.ofLine?_spec hc
  rw [Text.eq_of_cut? hkey, Text.eq_of_cut? hend] at hline
  have hindent : ∀ d ∈ c.indent, P d := fun d hd => hline d (by simp [hd])
  have htail : ∀ d ∈ c.tail, P d := fun d hd => hline d (by simp [hd])
  have hname : ∀ d ∈ c.compiler, P d := by
    intro d hd
    rw [hcompiler] at hd
    have := Text.mem_of_mem_trim hd
    exact hline d (by simpa using .inr (.inr ((List.mem_append.mp this).imp_right .inl)))
  have hstop : ∀ d ∈ (("\"," : String) : Text), P d := hP.ofString (by decide)
  rcases hkind with ⟨front, rest, referenced, after, hcut, hquote, hpath, rfl⟩ | ⟨_, hpath, rfl⟩
  · -- a path that is copied comes from the old line
    rw [Text.eq_of_cut? hcut, Text.eq_of_cut? hquote] at htail
    have hreferenced : ∀ d ∈ referenced, P d := fun d hd => htail d (by simp [hd])
    rw [hpath]
    exact forall_mem_append (hP.lead hindent hname
      (hP.copyName (hP.normalize hreferenced) o.dialect)) hstop
  · -- a path that is made comes from the folder and the file
    have hslash : ∀ d ∈ (("/" : String) : Text), P d := hP.ofString (by decide)
    have hblank : ∀ d ∈ ((" " : String) : Text), P d := hP.ofString (by decide)
    rw [hpath]
    exact forall_mem_append (forall_mem_append (forall_mem_append (hP.lead hindent hname
      (forall_mem_append (forall_mem_append hdir hslash) (hP.flatName hfile))) hblank)
      (hP.escape hfile)) hstop

end points

end Database

end ClangDb
