import ShapeSdl.Proofs.Atomic
import ShapeSdl.Proofs.EnumLines
import ShapeSdl.Proofs.Legible
import Mathlib.Data.List.DropRight

/-!
# The comment in front of the output

The comment shows the command, and the command shows texts out of the arguments as they are.

* `Text.trimEnd` : a text without the ends of lines at its end;
* `Commented` : a text that is one or two lines of a comment, an empty line, and a body;
* `OnOneLine` : words that stay on one line when they are written one after the other;
* `header_eq` : the comment is one line, an end of line, and the trimmed command;
* `run_commented` : what a run has written is such a text exactly if the words of its command stay
  on one line;
* `brokenName_uncommented` : a name with an end of line. What follows it stands outside the
  comment.
-/

namespace ShapeSdl

/-! ## Ends of lines -/

namespace Text

def trimEnd (s : String) : String := String.ofList (s.toList.rdropWhile (· = '\n'))

theorem rdropWhile_append_of_getLast? {α : Type} {p : α → Bool} {xs : List α}
    (h : ∀ x ∈ xs.getLast?, p x = false) (ys : List α) :
    (xs ++ ys).rdropWhile p = xs ++ ys.rdropWhile p := by
  induction ys using List.reverseRecOn with
  | nil =>
    rw [List.append_nil, List.rdropWhile_nil, List.append_nil, List.rdropWhile_eq_self_iff]
    intro hne
    rw [h _ (List.getLast?_eq_getLast_of_ne_nil hne)]
    exact Bool.false_ne_true
  | append_singleton ys y ih =>
    rw [← List.append_assoc, List.rdropWhile_concat, List.rdropWhile_concat, ih]
    split
    · rfl
    · rw [List.append_assoc]

theorem trimEnd_append_space (s t : String) : trimEnd (s ++ " " ++ t) = s ++ " " ++ trimEnd t := by
  have hlast : ∀ c ∈ (s ++ " ").toList.getLast?, decide (c = '\n') = false := by simp
  rw [trimEnd, trimEnd, String.toList_append, rdropWhile_append_of_getLast? hlast,
    String.ofList_append, String.ofList_toList]

end Text

open Text (split trimEnd)

namespace CommandLine

/-! ## Texts behind a comment -/

/-- One or two lines that begin with a number sign, an empty line, then the body and the end of its
last line. -/
def Commented (body text : String) : Prop :=
  ∃ lines : List String, (lines.length = 1 ∨ lines.length = 2) ∧
    (∀ line ∈ lines, '\n' ∉ line.toList ∧ line.toList.head? = some '#') ∧
    text = "\n".intercalate lines ++ "\n\n" ++ body ++ "\n"

/-- Behind the lines of the comment there is an empty line. -/
theorem Commented.exists_split {body text : String} (h : Commented body text) :
    ∃ lines rest, (lines.length = 1 ∨ lines.length = 2) ∧
      split '\n' text = lines ++ "" :: rest := by
  obtain ⟨lines, hlength, hlines, rfl⟩ := h
  have hne : lines ≠ [] := by rintro rfl; simp at hlength
  refine ⟨lines, split '\n' (body ++ "\n"), hlength, ?_⟩
  have htext : "\n".intercalate lines ++ "\n\n" ++ body ++ "\n" =
      "\n".intercalate lines ++ "\n" ++ ("" ++ "\n" ++ (body ++ "\n")) := by
    simp only [String.append_assoc]; rfl
  rw [htext, Text.split_append rfl, Text.split_append rfl,
    Text.split_intercalate rfl hne fun line hline => (hlines line hline).1]
  rfl

/-- No word ends a line, except that the last one may end in ends of lines. -/
def OnOneLine : List String → Prop
  | [] => True
  | [last] => '\n' ∉ (trimEnd last).toList
  | word :: rest => '\n' ∉ word.toList ∧ OnOneLine rest

/-- Words on one line, one behind the other, are one line when the end is trimmed. -/
theorem newline_notMem_trimEnd_intercalate : ∀ words : List String,
    '\n' ∉ (trimEnd (" ".intercalate words)).toList ↔ OnOneLine words
  | [] => by simp [OnOneLine, trimEnd]
  | [last] => by simp [OnOneLine]
  | first :: second :: rest => by
    rw [String.intercalate_cons_cons, Text.trimEnd_append_space, String.toList_append,
      List.mem_append, not_or, newline_notMem_trimEnd_intercalate (second :: rest)]
    simp [OnOneLine]

instance (words : List String) : Decidable (OnOneLine words) :=
  decidable_of_iff _ (newline_notMem_trimEnd_intercalate words)

/-! ## The comment -/

theorem header_eq (command : String) :
    header command = "# Generated by schema_to_sdl 1.0.0" ++ "\n" ++ ("# " ++ trimEnd command) := by
  have htrim : header command =
      trimEnd ("# Generated by schema_to_sdl 1.0.0\n#" ++ " " ++ command) := rfl
  rw [htrim, Text.trimEnd_append_space, ← String.append_assoc]
  rfl

/-- With the comment in front a text is commented exactly if the trimmed command is one line. -/
theorem commented_header_iff (command body : String) :
    Commented body (header command ++ "\n\n" ++ body ++ "\n") ↔
      '\n' ∉ (trimEnd command).toList := by
  constructor
  · rintro ⟨lines, hlength, hlines, htext⟩
    have hne : lines ≠ [] := by rintro rfl; simp at hlength
    have hheader : header command = "\n".intercalate lines := by
      simpa [String.append_assoc] using htext
    -- The comment has a line for the program and one more for each end of line in the command.
    have hsplit : split '\n' ("\n".intercalate lines) = lines :=
      Text.split_intercalate rfl hne fun line hline => (hlines line hline).1
    have hcount := congrArg List.length hsplit
    rw [← hheader, header_eq, Text.split_append rfl, List.length_append, Text.length_split,
      Text.length_split, String.toList_append, List.count_append] at hcount
    rw [← List.count_eq_zero]
    omega
  · intro h
    refine ⟨["# Generated by schema_to_sdl 1.0.0", "# " ++ trimEnd command], .inr rfl, ?_, ?_⟩
    · intro line hline
      rcases List.mem_cons.1 hline with rfl | hline
      · decide +kernel
      · rw [List.mem_singleton] at hline
        subst hline
        simp [h]
    · rw [header_eq]
      simp [String.append_assoc]

theorem onOneLine_cons_iff {word : String} {rest : List String} (hrest : rest ≠ []) :
    OnOneLine (word :: rest) ↔ '\n' ∉ word.toList ∧ OnOneLine rest := by
  cases rest with
  | nil => exact absurd rfl hrest
  | cons second rest => rfl

variable {parse : ArgumentReader} {disk : Disk} {args : List String}

/-- A run that ends well, and is not for help, has written its text. If the comment is wanted, that
text is one or two lines of a comment, an empty line, the document and an end of line exactly if the
words of the command stay on one line. -/
theorem run_commented (hhelp : ∀ a, parse args = .ok a → a.help = false)
    (hexit : (run parse disk args).outcome.exitCode = 0) :
    ∃ job schema o document, Compiles parse disk args job schema o document ∧
      disk.Wrote job.output (job.outputText o document) (run parse disk args).disk ∧
      (o.addGenerationComment.isTruthy = true →
        (Commented document.text (job.outputText o document) ↔
          OnOneLine (commandWords job.args job.schema job.output job.config))) := by
  obtain ⟨job, schema, o, document, hc, hwrote⟩ := exists_wrote_of_exitCode hhelp hexit
  refine ⟨job, schema, o, document, hc, hwrote, fun hcomment => ?_⟩
  rw [job.outputText_eq, Job.front, if_pos hcomment, commented_header_iff, commandLine,
    newline_notMem_trimEnd_intercalate, onOneLine_cons_iff (by simp [commandWords])]
  exact and_iff_right (by decide)

/-- A name that ends in an end of line, shown last, leaves the comment whole. -/
theorem run_commented_trailing : ∃ job schema o document,
    Compiles Arguments.parse petDisk ["pet.json", "o", "-n", "Pet\n"] job schema o document ∧
      Commented document.text (job.outputText o document) := by
  have hparse : Arguments.parse ["pet.json", "o", "-n", "Pet\n"] =
      .ok { name := some "Pet\n", positional := ["pet.json", "o"] } := by rfl
  have hhelp : ∀ a, Arguments.parse ["pet.json", "o", "-n", "Pet\n"] = .ok a → a.help = false := by
    intro a ha
    cases hparse.symm.trans ha
    rfl
  obtain ⟨job, schema, o, document, hc, -, hiff⟩ := run_commented hhelp
    (show (run Arguments.parse petDisk ["pet.json", "o", "-n", "Pet\n"]).outcome.exitCode = 0 by
      decide +kernel)
  have hargs := Except.ok.inj (hc.parsed.symm.trans hparse)
  have hconfig : job.config = none := by
    have := hc.config
    rw [hargs] at this
    cases h : job.config with
    | none => rfl
    | some p => rw [h] at this; cases this
  have hcomment : o.addGenerationComment.isTruthy = true := by
    obtain ⟨base, rfl, hbase⟩ := hc.options
    rw [hconfig] at hbase
    cases hbase
    rfl
  obtain ⟨_, _, hpositional, hschema, houtput⟩ := hc.positional
  rw [hargs] at hpositional
  cases hpositional
  have hnames : job.schema.name = "pet.json" ∧ job.output.name = "o" := by
    have hshown : (petDisk.resolve "pet.json").toOption.map FilePath.name = some "pet.json" ∧
        (petDisk.resolve "o").toOption.map FilePath.name = some "o" := by decide +kernel
    rw [hschema, houtput] at hshown
    exact ⟨Option.some.inj hshown.1, Option.some.inj hshown.2⟩
  refine ⟨job, schema, o, document, hc, (hiff hcomment).2 ?_⟩
  rw [hargs, hconfig, commandWords, hnames.1, hnames.2]
  decide +kernel

/-- What is written for a name with an end of line. -/
def brokenLines : List String :=
  ["# Generated by schema_to_sdl 1.0.0", "# schema_to_sdl pet.json o --name a", "b", "",
    "type AB \x7b", "  name: String", "\x7d", ""]

/-- The rest of a name with an end of line stands in the output on a line of its own, which is no
comment: the text is no document behind a comment of one or two lines. -/
theorem brokenName_uncommented :
    (run Arguments.parse petDisk ["pet.json", "o", "--name", "a\nb"]).outcome.exitCode = 0 ∧
    (run Arguments.parse petDisk ["pet.json", "o", "--name", "a\nb"]).disk.text? "o" =
      some ("\n".intercalate brokenLines) ∧
    ∀ body, ¬Commented body ("\n".intercalate brokenLines) := by
  rw [← and_assoc]
  refine ⟨by decide +kernel, fun body h => ?_⟩
  have hbroken : split '\n' ("\n".intercalate brokenLines) = brokenLines :=
    Text.split_intercalate rfl nofun (by decide +kernel)
  -- The second and the third line are not empty.
  obtain ⟨lines, rest, hlength, hsplit⟩ := h.exists_split
  have hempty := congrArg (·[lines.length]?) hsplit
  rw [hbroken, List.getElem?_append_right le_rfl, Nat.sub_self, List.getElem?_cons_zero] at hempty
  rcases hlength with hone | htwo
  · simp [hone, brokenLines] at hempty
  · simp [htwo, brokenLines] at hempty

end CommandLine

end ShapeSdl
