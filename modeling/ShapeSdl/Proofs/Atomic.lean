import ShapeSdl.CommandLine.Run
import ShapeSdl.Proofs.Reads

/-!
# What a run leaves on the disk

* `Disk.Wrote` : two disks that differ in one file only; `Disk.Holds` : a file that holds a value;
* `Job.Configured` : the options of a configuration, with what the switches turn on;
* `Compiles` : the document that arguments and the files that they name come to;
* `Fails` : where no value comes out, a run ends badly;
* `act_cases` : a run changes nothing, or it comes to a document and writes its text;
* `run_atomic` : a run that ends well has written its text and nothing else, and one that ends badly
  has changed nothing, unless its text cannot be encoded;
* `halfEnum_truncated` : in that case the file of the output is there, and empty.
-/

namespace ShapeSdl.CommandLine

theorem Except.bind_eq_ok_iff {ε α β : Type} {x : Except ε α} {f : α → Except ε β} {b : β} :
    (x >>= f) = .ok b ↔ ∃ a, x = .ok a ∧ f a = .ok b := by
  cases x <;> simp [bind, Except.bind]

/-! ## Disks -/

namespace Disk

/-- The second disk is the first one with the text in the file at the path. -/
structure Wrote (d : Disk) (p : FilePath) (text : String) (d' : Disk) : Prop where
  file : d'.find? p = some (.file text)
  other : ∀ q, q.key ≠ p.key → d'.find? q = d.find? q

/-- The file at the path holds a value. -/
def Holds (d : Disk) (p : FilePath) (v : Json) : Prop :=
  ∃ text, d.find? p = some (.file text) ∧ Json.read text = .ok v

variable {d d' : Disk} {p : FilePath} {text : String}

theorem wrote_put (hp : p.isEmpty = false) :
    d.Wrote p text { d with entries := d.entries.put p.key (.file text) } where
  file := by rw [find?, if_neg (by simp [hp]), Entries.get?_put_self]
  other q hq := by
    unfold find?
    split
    · rfl
    · exact d.entries.get?_put_of_ne _ hq

theorem wrote_of_store (h : d.store p text = .ok d') : d.Wrote p text d' := by
  have hp : p.isEmpty = false := by
    cases p with
    | nil => cases h
    | cons => rfl
  unfold store at h
  dsimp only at h
  split at h
  · cases h
  · cases h
    exact wrote_put hp
  · split at h
    · cases h
    · split at h
      · cases h
      · cases h
        exact wrote_put hp

end Disk

/-! ## The steps up to a document -/

/-- The options with what the switches turn on. -/
def Arguments.switchOn (args : Arguments) (o : Options) : Options :=
  { o with
    strict := if args.strict then .bool true else o.strict
    preserveEnumCase := if args.preserveEnumCase then .bool true else o.preserveEnumCase }

/-- The options of a job: those of its configuration, if there is one, and what the switches turn
on. -/
def Job.Configured (disk : Disk) (job : Job) (o : Options) : Prop :=
  ∃ base, o = job.args.switchOn base ∧ match job.config with
    | none => base = {}
    | some config => ∃ v, disk.Holds config v ∧ Options.ofConfiguration v = .ok base

/-- The document that arguments and the files that they name come to: the schema is compiled with the
options of the job, under the given root name or else that of the schema's file. -/
structure Compiles (parse : ArgumentReader) (disk : Disk) (args : List String) (job : Job)
    (schema : Json) (o : Options) (document : Document) : Prop where
  parsed : parse args = .ok job.args
  positional : ∃ schema output, job.args.positional = [schema, output] ∧
    disk.resolve schema = .ok job.schema ∧ disk.resolve output = .ok job.output
  config : Option.Rel (fun text p => disk.resolve text = .ok p) job.args.config job.config
  read : disk.Holds job.schema schema
  options : job.Configured disk o
  compiled : (Compilation.ofSchema schema
    (job.args.name.getD (TypeName.ofFile job.schema.absolute)) o).result = .ok document

namespace Job

/-- What stands in front of the document: the comment and an empty line, if they are wanted. -/
def front (job : Job) (o : Options) : String :=
  if o.addGenerationComment.isTruthy then
    header (commandLine (commandWords job.args job.schema job.output job.config)) ++ "\n\n"
  else ""

theorem outputText_eq (job : Job) (o : Options) (document : Document) :
    job.outputText o document = job.front o ++ document.text ++ "\n" := rfl

variable {disk : Disk} {job : Job} {args : Arguments} {p : FilePath} {v : Json} {o : Options}
  {text : String}

theorem resolve_of_path (h : path disk text = .ok p) : disk.resolve text = .ok p := by
  unfold path at h
  cases hr : disk.resolve text with
  | error f => rw [hr] at h; cases h
  | ok q => rw [hr] at h; cases h; rfl

theorem resolve_of_existingPath {hint : String} (h : existingPath disk hint text = .ok p) :
    disk.resolve text = .ok p := by
  obtain ⟨q, hq, h⟩ := Except.bind_eq_ok_iff.1 h
  split at h
  · cases h
    exact resolve_of_path hq
  · cases h

theorem of_ofArguments (h : ofArguments disk args = .ok job) : job.args = args ∧
    (∃ schema output, args.positional = [schema, output] ∧
      disk.resolve schema = .ok job.schema ∧ disk.resolve output = .ok job.output) ∧
    Option.Rel (fun text p => disk.resolve text = .ok p) args.config job.config := by
  obtain ⟨config, hconfig, h⟩ := Except.bind_eq_ok_iff.1 h
  have hrel : Option.Rel (fun text p => disk.resolve text = .ok p) args.config config := by
    cases hargs : args.config with
    | none =>
      rw [hargs] at hconfig
      cases hconfig
      exact .none
    | some text =>
      rw [hargs] at hconfig
      obtain ⟨p, hp, hpure⟩ := Except.bind_eq_ok_iff.1 hconfig
      cases hpure
      exact .some (resolve_of_existingPath hp)
  split at h
  · cases h
  · rename_i schema rest hpositional
    obtain ⟨schemaPath, hschema, h⟩ := Except.bind_eq_ok_iff.1 h
    split at h
    · cases h
    · rename_i output more _
      obtain ⟨outputPath, houtput, h⟩ := Except.bind_eq_ok_iff.1 h
      split at h
      · rename_i hmore
        cases h
        rw [List.isEmpty_iff] at hmore
        subst hmore
        exact ⟨rfl, ⟨schema, output, hpositional, resolve_of_existingPath hschema,
          resolve_of_path houtput⟩, hrel⟩
      · cases h

theorem readJson_eq_ok_iff : readJson disk p = .ok v ↔ disk.Holds p v := by
  unfold readJson Disk.fileText Disk.Holds
  cases disk.find? p with
  | none => simp
  | some entry =>
    cases entry with
    | directory => simp
    | file text =>
      dsimp only
      cases hr : Json.read text with
      | error f =>
        refine iff_of_false (by rintro ⟨⟩) ?_
        rintro ⟨_, ⟨⟩, hv⟩
        cases hr.symm.trans hv
      | ok w =>
        constructor
        · rintro ⟨⟩
          exact ⟨text, rfl, hr⟩
        · rintro ⟨_, ⟨⟩, hv⟩
          cases hr.symm.trans hv
          rfl

def baseOptions (job : Job) (disk : Disk) : Except Outcome Options :=
  match job.config with
  | none => .ok {}
  | some config => readJson disk config >>= fun v => (Options.ofConfiguration v).mapError .failed

theorem options_eq (job : Job) (disk : Disk) :
    job.options disk = job.baseOptions disk >>= fun base => .ok (job.args.switchOn base) := by
  unfold options baseOptions Arguments.switchOn
  cases job.config with
  | none => cases job.args.strict <;> cases job.args.preserveEnumCase <;> rfl
  | some config =>
    rw [bind_assoc]
    cases job.args.strict <;> cases job.args.preserveEnumCase <;> rfl

theorem configured_of_options (h : job.options disk = .ok o) : job.Configured disk o := by
  rw [options_eq] at h
  obtain ⟨base, hbase, h⟩ := Except.bind_eq_ok_iff.1 h
  cases h
  refine ⟨base, rfl, ?_⟩
  unfold baseOptions at hbase
  cases hc : job.config with
  | none =>
    rw [hc] at hbase
    cases hbase
    rfl
  | some config =>
    rw [hc] at hbase
    obtain ⟨v, hv, hbase⟩ := Except.bind_eq_ok_iff.1 hbase
    refine ⟨v, readJson_eq_ok_iff.1 hv, ?_⟩
    cases ho : Options.ofConfiguration v with
    | error f => rw [ho] at hbase; cases hbase
    | ok o => rw [ho] at hbase; cases hbase; rfl

end Job

/-! ## Ends that are not well -/

/-- Where no value comes out, the run does not end well. -/
def Fails {α : Type} (x : Except Outcome α) : Prop :=
  ∀ outcome, x = .error outcome → outcome.exitCode ≠ 0

namespace Fails

variable {α β : Type} {x : Except Outcome α}

theorem ok (a : α) : Fails (.ok a : Except Outcome α) := nofun

theorem error {outcome : Outcome} (h : outcome.exitCode ≠ 0) :
    Fails (.error outcome : Except Outcome α) := by
  rintro _ ⟨⟩
  exact h

theorem bind {f : α → Except Outcome β} (hx : Fails x) (hf : ∀ a, Fails (f a)) :
    Fails (x >>= f) := by
  cases x with
  | ok a => exact hf a
  | error outcome => exact .error (hx outcome rfl)

theorem mapError {ε : Type} {y : Except ε α} {f : ε → Outcome} (hf : ∀ e, (f e).exitCode ≠ 0) :
    Fails (y.mapError f) := by
  cases y with
  | ok a => exact .ok a
  | error e => exact .error (hf e)

end Fails

namespace Outcome

theorem exitCode_usage_ne (fault : UsageFault) : (usage fault).exitCode ≠ 0 := Nat.succ_ne_zero 1

theorem exitCode_failed_ne (fault : Fault) : (failed fault).exitCode ≠ 0 := Nat.one_ne_zero

theorem exitCode_fileFault_ne (fault : FileFault) : (fileFault fault).exitCode ≠ 0 :=
  Nat.one_ne_zero

theorem exitCode_told_eq_zero_iff (outcome : Outcome) :
    outcome.told.exitCode = 0 ↔ outcome.exitCode = 0 := by
  unfold told
  split
  · cases outcome with
    | done => rename_i h; cases h
    | _ => simp [exitCode]
  · rfl

end Outcome

namespace Job

open Outcome

variable (disk : Disk)

theorem fails_existingPath (hint text : String) : Fails (existingPath disk hint text) := by
  refine .bind (.mapError exitCode_fileFault_ne) fun p => ?_
  split
  · exact .ok p
  · exact .error (exitCode_usage_ne _)

theorem fails_ofArguments (args : Arguments) : Fails (ofArguments disk args) := by
  refine .bind ?_ fun config => ?_
  · cases args.config with
    | none => exact .ok none
    | some text => exact .bind (fails_existingPath disk _ text) fun p => .ok (some p)
  · split
    · exact .error (exitCode_usage_ne _)
    · refine .bind (fails_existingPath disk _ _) fun schema => ?_
      split
      · exact .error (exitCode_usage_ne _)
      · refine .bind (.mapError exitCode_fileFault_ne) fun output => ?_
        split
        · exact .ok _
        · exact .error (exitCode_usage_ne _)

theorem fails_readJson (p : FilePath) : Fails (readJson disk p) := by
  unfold readJson
  split
  · exact .error (exitCode_fileFault_ne _)
  · exact .mapError fun _ => exitCode_fileFault_ne _

theorem fails_options (job : Job) : Fails (job.options disk) := by
  rw [options_eq]
  refine .bind ?_ fun base => .ok _
  unfold baseOptions
  split
  · exact .ok _
  · exact .bind (fails_readJson disk _) fun v => .mapError exitCode_failed_ne

end Job

/-! ## Runs -/

variable {parse : ArgumentReader} {disk : Disk} {args : List String}

/-- A job ends badly and writes nothing, or it comes to a document and writes its text. -/
theorem Job.perform_cases {a : Arguments} {job : Job} (ha : parse args = .ok a)
    (hjob : Job.ofArguments disk a = .ok job) :
    ((job.perform disk).disk = disk ∧ (job.perform disk).outcome.exitCode ≠ 0) ∨
      ∃ schema o document report, Compiles parse disk args job schema o document ∧ report.disk = disk ∧
        job.perform disk = job.write (job.outputText o document) report := by
  obtain ⟨rfl, hpositional, hconfig⟩ := of_ofArguments hjob
  unfold perform
  cases hschema : readJson disk job.schema with
  | error outcome => exact .inl ⟨rfl, fails_readJson disk _ outcome hschema⟩
  | ok schema =>
    cases ho : job.options disk with
    | error outcome => exact .inl ⟨rfl, fails_options disk job outcome ho⟩
    | ok o =>
      dsimp only
      cases hc : (Compilation.ofSchema schema job.rootName o).result with
      | error fault => exact .inl ⟨rfl, Outcome.exitCode_failed_ne fault⟩
      | ok document =>
        exact .inr ⟨schema, o, document, _, ⟨ha, hpositional, hconfig, readJson_eq_ok_iff.1 hschema,
          configured_of_options ho, hc⟩, rfl, rfl⟩

/-- Writing a text changes nothing, or it leaves the text, or the text cannot be encoded and the file
is left empty. -/
theorem Job.write_cases (job : Job) (text : String) (report : Report) :
    ((job.write text report).disk = report.disk ∧ (job.write text report).outcome.exitCode ≠ 0) ∨
    ((job.write text report).outcome.exitCode = 0 ∧
      report.disk.Wrote job.output text (job.write text report).disk) ∨
    ((job.write text report).outcome.exitCode ≠ 0 ∧ Text.hasHalf text = true ∧
      report.disk.Wrote job.output "" (job.write text report).disk) := by
  cases hhalf : Text.hasHalf text with
  | true =>
    simp only [write, hhalf, Bool.not_true, Bool.false_eq_true, if_false]
    cases hstore : report.disk.store job.output "" with
    | error fault => exact .inl ⟨rfl, Outcome.exitCode_fileFault_ne fault⟩
    | ok d =>
      exact .inr (.inr ⟨Outcome.exitCode_fileFault_ne _, trivial, Disk.wrote_of_store hstore⟩)
  | false =>
    simp only [write, hhalf, Bool.not_false, if_true]
    cases hstore : report.disk.store job.output text with
    | error fault => exact .inl ⟨rfl, Outcome.exitCode_fileFault_ne fault⟩
    | ok d => exact .inr (.inl ⟨rfl, Disk.wrote_of_store hstore⟩)

/-- What a run that is not for help leaves: nothing new, or the text of its document, or an empty file
where that text cannot be encoded. -/
theorem act_cases (hhelp : ∀ a, parse args = .ok a → a.help = false) :
    ((act parse disk args).disk = disk ∧ (act parse disk args).outcome.exitCode ≠ 0) ∨
    ∃ job schema o document, Compiles parse disk args job schema o document ∧
      ((act parse disk args).outcome.exitCode = 0 ∧
          disk.Wrote job.output (job.outputText o document) (act parse disk args).disk ∨
        (act parse disk args).outcome.exitCode ≠ 0 ∧ Text.hasHalf (job.outputText o document) = true ∧
          disk.Wrote job.output "" (act parse disk args).disk) := by
  unfold act
  cases ha : parse args with
  | error message => exact .inl ⟨rfl, Outcome.exitCode_usage_ne _⟩
  | ok a =>
    simp only [hhelp a ha, Bool.false_eq_true, if_false]
    cases hjob : Job.ofArguments disk a with
    | error outcome => exact .inl ⟨rfl, Job.fails_ofArguments disk a outcome hjob⟩
    | ok job =>
      dsimp only
      rcases Job.perform_cases ha hjob with h | ⟨schema, o, document, report, hc, hdisk, hperform⟩
      · exact .inl h
      · rw [hperform]
        rcases job.write_cases (job.outputText o document) report with h | h
        · exact .inl ⟨h.1.trans hdisk, h.2⟩
        · rw [hdisk] at h
          exact .inr ⟨job, schema, o, document, hc, h⟩

theorem exists_wrote_of_exitCode (hhelp : ∀ a, parse args = .ok a → a.help = false)
    (hexit : (run parse disk args).outcome.exitCode = 0) :
    ∃ job schema o document, Compiles parse disk args job schema o document ∧
      disk.Wrote job.output (job.outputText o document) (run parse disk args).disk := by
  have hact : (act parse disk args).outcome.exitCode = 0 :=
    (act parse disk args).outcome.exitCode_told_eq_zero_iff.1 hexit
  rcases act_cases hhelp with ⟨-, hbad⟩ | ⟨job, schema, o, document, hc, ⟨-, hwrote⟩ | ⟨hbad, -⟩⟩
  · exact absurd hact hbad
  · exact ⟨job, schema, o, document, hc, hwrote⟩
  · exact absurd hact hbad

/-- A run that is not for help and ends well has written one file: the comment and an empty line, if
they are wanted, then the text of the document that its arguments come to, and an end of line. One
that ends badly has changed nothing, unless its text holds half of a surrogate pair: then the file of
the output is there and empty. -/
theorem run_atomic (hhelp : ∀ a, parse args = .ok a → a.help = false) :
    ((run parse disk args).outcome.exitCode = 0 → ∃ job schema o document,
      Compiles parse disk args job schema o document ∧
      disk.Wrote job.output (job.front o ++ document.text ++ "\n") (run parse disk args).disk) ∧
    ((run parse disk args).outcome.exitCode ≠ 0 → (run parse disk args).disk = disk ∨
      ∃ job schema o document, Compiles parse disk args job schema o document ∧
        Text.hasHalf (job.outputText o document) = true ∧
        disk.Wrote job.output "" (run parse disk args).disk) := by
  refine ⟨exists_wrote_of_exitCode hhelp, fun hexit => ?_⟩
  have hact : (act parse disk args).outcome.exitCode ≠ 0 :=
    mt (act parse disk args).outcome.exitCode_told_eq_zero_iff.2 hexit
  rcases act_cases hhelp with
    ⟨hsame, -⟩ | ⟨job, schema, o, document, hc, ⟨hwell, -⟩ | ⟨-, hhalf, hwrote⟩⟩
  · exact .inl hsame
  · exact absurd hwell hact
  · exact .inr ⟨job, schema, o, document, hc, hhalf, hwrote⟩

/-- A disk with files in its root, which is the working directory. -/
def Disk.ofFiles (files : List (String × String)) : Disk :=
  files.foldl (fun d f => match d.resolve f.1 with
    | .ok p => d.install p (.file f.2)
    | .error _ => d) (ofWorking [])

def Disk.text? (d : Disk) (name : String) : Option String :=
  match d.resolve name with
  | .ok p => (d.fileText p).toOption
  | .error _ => none

/-- A schema, a configuration that wants no comment, and an output from before. -/
def petDisk : Disk := .ofFiles [
  ("pet.json", "\x7b\"properties\": \x7b\"name\": \x7b\"type\": \"string\"\x7d\x7d\x7d"),
  ("c.json", "\x7b\"addGenerationComment\": false\x7d"), ("o", "OLD")]

theorem run_atomic_pet :
    (∃ job schema o document,
      Compiles Arguments.parse petDisk ["pet.json", "o", "-c", "c.json"] job schema o document ∧
      petDisk.Wrote job.output (job.outputText o document)
        (run Arguments.parse petDisk ["pet.json", "o", "-c", "c.json"]).disk) ∧
    (run Arguments.parse petDisk ["pet.json", "o", "-n", "Pet", "extra"]).disk = petDisk := by
  have hwell : (run Arguments.parse petDisk ["pet.json", "o", "-c", "c.json"]).outcome.exitCode = 0 := by
    decide +kernel
  have hbad :
      (run Arguments.parse petDisk ["pet.json", "o", "-n", "Pet", "extra"]).outcome.exitCode ≠ 0 := by
    decide +kernel
  have hparse : Arguments.parse ["pet.json", "o", "-n", "Pet", "extra"] =
      .ok { name := some "Pet", positional := ["pet.json", "o", "extra"] } := by rfl
  have hparse' : Arguments.parse ["pet.json", "o", "-c", "c.json"] =
      .ok { config := some "c.json", positional := ["pet.json", "o"] } := by rfl
  refine ⟨(run_atomic ?_).1 hwell, ((run_atomic ?_).2 hbad).resolve_right ?_⟩
  · intro a ha
    cases hparse'.symm.trans ha
    rfl
  · intro a ha
    cases hparse.symm.trans ha
    rfl
  · -- One positional argument too many gives no job.
    rintro ⟨job, schema, o, document, hc, -⟩
    obtain ⟨_, _, hpositional, -⟩ := hc.positional
    have hargs := hc.parsed.symm.trans hparse
    rw [Except.ok.inj hargs] at hpositional
    simp at hpositional

/-- A schema with an enum of half of a surrogate pair, and an output from before. -/
def halfDisk : Disk := .ofFiles [
  ("s.json", "\x7b\"$defs\": \x7b\"E\": \x7b\"enum\": [\"\\ud800\"]\x7d\x7d\x7d"), ("o", "OLD")]

/-- The run ends badly, and what was in the file of the output is gone. -/
theorem halfEnum_truncated :
    (Arguments.parse ["s.json", "o"]).toOption.any (fun a => a.help) = false ∧
    (run Arguments.parse halfDisk ["s.json", "o"]).outcome.exitCode = 1 ∧
    halfDisk.text? "o" = some "OLD" ∧
    (run Arguments.parse halfDisk ["s.json", "o"]).disk.text? "o" = some "" := by
  decide +kernel

end ShapeSdl.CommandLine
