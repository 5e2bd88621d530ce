import ShapeSdl.Proofs.Atomic
import ShapeSdl.Proofs.Document
import ShapeSdl.Proofs.Order
import ShapeSdl.Proofs.Siblings
import ShapeSdl.Proofs.TypeNames

/-!
# The name of the root

A root without a name is left out. The command line takes the name from that of the schema's file,
which need not give one.

* `readDocument_root`, `readDocument_without` : the root has its entry in the batch under its name,
  and without a name its properties are not read;
* `Json.IsRootAt` : the node that a document's root is read to;
* `run_root` : a run without a given name writes the declaration of the root if there is a letter or
  a digit before the first point of the file's name, and otherwise what it would write if there were
  no properties;
* `underscoreFile_drops` : such a file's name.
-/

namespace ShapeSdl

open Reading (lift_eq_ok)
open Fault (bind_eq_ok pure_eq_ok)

/-! ## Documents -/

/-- From session `s` on, first the definitions of a document are read and then its root, which gives
node `id` and session `t`. -/
def Json.IsRootAt (schema : Json) (s : Session) (id : NodeId) (t : Session) : Prop :=
  ∃ definitions nodes u, schema.definitions = .ok definitions ∧
    readDefinitions definitions s.begin = .ok nodes u ∧
    readSchema (followReference definitions (readDefinition definitions definitions)) schema "#" u =
      .ok id t

variable {schema : Json} {root : String} {s t : Session} {batch : Batch}

theorem readDocument_root (hp : (schema.get? "properties").isSome = true) (hroot : root ≠ "")
    (h : readDocument schema root s = .ok batch t) :
    ∃ id, schema.IsRootAt s id t ∧ batch.get? (TypeName.pascal root) = some (some id) := by
  unfold readDocument at h
  rw [Reading.begin_bind, bind_eq_ok] at h
  obtain ⟨definitions, u, hlift, h⟩ := h
  obtain ⟨hd, rfl⟩ := lift_eq_ok.1 hlift
  obtain ⟨nodes, u, hn, h⟩ := bind_eq_ok.1 h
  rw [Reading.get_bind] at h
  dsimp only at h
  rw [if_pos ⟨hp, hroot⟩] at h
  obtain ⟨id, v, hi, h⟩ := bind_eq_ok.1 h
  obtain ⟨rfl, rfl⟩ := pure_eq_ok.1 h
  exact ⟨id, ⟨definitions, nodes, u, hd, hn, hi⟩, Entries.get?_put_self ..⟩

theorem Json.definitions_without_properties (schema : Json) :
    (schema.without "properties").definitions = schema.definitions := by
  unfold definitions definitionContainer
  rw [get?_without_of_ne (by decide), get?_without_of_ne (by decide)]
  cases schema <;> rfl

/-- A document is read without a name for its root as if the root had no properties. -/
theorem readDocument_without (schema : Json) (root : String) :
    readDocument (schema.without "properties") root = readDocument schema "" := by
  unfold readDocument
  rw [Json.definitions_without_properties, Json.get?_without_self]
  simp

theorem Compilation.ofSchema_without (schema : Json) (root : String) (o : Options) :
    Compilation.ofSchema (schema.without "properties") root o = Compilation.ofSchema schema "" o := by
  unfold Compilation.ofSchema Session.read
  rw [readDocument_without]

theorem Document.exists_text_eq {document : Document} {d : Declaration} (h : d ∈ document) :
    ∃ before after, document.text = before ++ d.text ++ after := by
  induction document with
  | nil => cases h
  | cons first rest ih =>
    cases rest with
    | nil =>
      cases List.mem_singleton.1 h
      exact ⟨"", "", by simp [text]⟩
    | cons second rest =>
      have htext : text (first :: second :: rest) =
          first.text ++ Document.separator ++ text (second :: rest) := String.intercalate_cons_cons
      rw [htext]
      rcases List.mem_cons.1 h with rfl | h
      · exact ⟨"", separator ++ text (second :: rest), by simp [String.append_assoc]⟩
      · obtain ⟨before, after, he⟩ := ih h
        exact ⟨first.text ++ separator ++ before, after, by rw [he]; simp [String.append_assoc]⟩

/-- What the root of a document is declared as under a name. -/
def Json.RootDeclared (schema : Json) (name : String) (o : Options) (d : Declaration) : Prop :=
  ∃ batch t registry id, readDocument schema name {} = .ok batch t ∧
    o.batchRegistry batch = .ok registry ∧ schema.IsRootAt {} id t ∧
    Context.Declared ⟨t.graph, registry, o⟩ (name, some id) d

/-- If a document compiles, then its root is declared under a name that is its own type name. -/
theorem Compilation.exists_rootDeclared {o : Options} {document : Document}
    (hp : (schema.get? "properties").isSome = true) (hroot : root ≠ "")
    (hself : TypeName.pascal root = root) (h : (ofSchema schema root o).result = .ok document) :
    ∃ d ∈ document, schema.RootDeclared root o d := by
  obtain ⟨batch, t, w, hread, hbatch⟩ := Compilation.result_eq_ok_iff.1 h
  obtain ⟨id, hid, hget⟩ := readDocument_root hp hroot hread
  rw [hself] at hget
  obtain ⟨registry, hreg, -, hdeclared, -⟩ := compileBatch_sound hbatch
  obtain ⟨d, hd, hdecl⟩ := exists_mem_right hdeclared (Entries.mem_toList_iff.2 hget)
  exact ⟨d, hd, batch, t, registry, id, hread, hreg, hid, hdecl⟩

/-! ## Runs -/

/-- Whether there is a letter or a digit before the first point of a file's name. -/
def TypeName.IsNaming (path : String) : Prop :=
  ∃ c ∈ (fileName path).toList.takeWhile (· ≠ '.'), c.isAlphanum = true

theorem TypeName.ofFile_ne_empty_iff (path : String) : ofFile path ≠ "" ↔ IsNaming path := by
  rw [ofFile, pascal_ne_empty_iff, String.toList_ofList, IsNaming]

namespace CommandLine

theorem Job.exists_outputText_eq (job : Job) (o : Options) {document : Document} {d : Declaration}
    (h : d ∈ document) : ∃ before after, job.outputText o document = before ++ d.text ++ after := by
  obtain ⟨before, after, htext⟩ := Document.exists_text_eq h
  refine ⟨job.front o ++ before, after ++ "\n", ?_⟩
  rw [outputText_eq, htext]
  simp only [String.append_assoc]

variable {parse : ArgumentReader} {disk : Disk} {args : List String}

/-- A run without a given name that ends well writes the document of its schema, named after the
file. If the schema has properties and there is a letter or a digit before the first point of the
file's name, then the declaration of the root is written under the name that the file's gives. If
there is none, then this name is empty, and what is written is the document of the schema without its
properties. -/
theorem run_root (hhelp : ∀ a, parse args = .ok a → a.help = false ∧ a.name = none)
    (hexit : (run parse disk args).outcome.exitCode = 0) :
    ∃ job schema o document, Compiles parse disk args job schema o document ∧
      disk.Wrote job.output (job.outputText o document) (run parse disk args).disk ∧
      ((schema.get? "properties").isSome = true →
        let name := TypeName.ofFile job.schema.absolute
        (TypeName.IsNaming job.schema.absolute → name ≠ "" ∧ ∃ d before after,
          schema.RootDeclared name o d ∧ d.name = name ∧
          job.outputText o document = before ++ d.text ++ after) ∧
        (¬ TypeName.IsNaming job.schema.absolute → name = "" ∧ ∀ root,
          (Compilation.ofSchema (schema.without "properties") root o).result = .ok document)) := by
  obtain ⟨job, schema, o, document, hc, hwrote⟩ :=
    exists_wrote_of_exitCode (fun a ha => (hhelp a ha).1) hexit
  refine ⟨job, schema, o, document, hc, hwrote, fun hp => ?_⟩
  have hcompiled := hc.compiled
  rw [(hhelp _ hc.parsed).2, Option.getD_none] at hcompiled
  rw [← TypeName.ofFile_ne_empty_iff]
  refine ⟨fun hne => ⟨hne, ?_⟩, fun heq => ?_⟩
  · have hself := TypeName.pascal_pascal
      (String.ofList ((TypeName.fileName job.schema.absolute).toList.takeWhile (· ≠ '.')))
    obtain ⟨d, hd, hdeclared⟩ := Compilation.exists_rootDeclared hp hne hself hcompiled
    obtain ⟨before, after, htext⟩ := job.exists_outputText_eq o hd
    obtain ⟨_, _, _, _, -, -, -, hdecl⟩ := id hdeclared
    exact ⟨d, before, after, hdeclared, hdecl.name_eq, htext⟩
  · have hempty : TypeName.ofFile job.schema.absolute = "" := not_not.1 heq
    refine ⟨hempty, fun root => ?_⟩
    rw [Compilation.ofSchema_without, ← hempty]
    exact hcompiled

/-- The file of pets is named after pets, and the root is declared under this name. -/
theorem run_root_pet : ∃ job schema o document d,
    Compiles Arguments.parse petDisk ["pet.json", "o"] job schema o document ∧
    petDisk.Wrote job.output (job.outputText o document)
      (run Arguments.parse petDisk ["pet.json", "o"]).disk ∧
    schema.RootDeclared "Pet" o d ∧ d.name = "Pet" ∧
    ∃ before after, job.outputText o document = before ++ d.text ++ after := by
  have hparse : Arguments.parse ["pet.json", "o"] = .ok { positional := ["pet.json", "o"] } := by rfl
  have hexit : (run Arguments.parse petDisk ["pet.json", "o"]).outcome.exitCode = 0 := by decide +kernel
  have hhelp : ∀ a, Arguments.parse ["pet.json", "o"] = .ok a → a.help = false ∧ a.name = none := by
    intro a ha
    cases hparse.symm.trans ha
    exact ⟨rfl, rfl⟩
  obtain ⟨job, schema, o, document, hc, hwrote, hroot⟩ := run_root hhelp hexit
  have hfile : (petDisk.resolve "pet.json").toOption.any (fun p =>
      decide (TypeName.ofFile p.absolute = "Pet") &&
        (Job.readJson petDisk p).toOption.any fun v => (v.get? "properties").isSome) = true := by
    decide +kernel
  obtain ⟨file, output, hpositional, hresolve, -⟩ := hc.positional
  rw [Except.ok.inj (hc.parsed.symm.trans hparse)] at hpositional
  cases hpositional
  rw [hresolve] at hfile
  obtain ⟨hname, hproperties⟩ := Bool.and_eq_true_iff.1 hfile
  rw [Job.readJson_eq_ok_iff.2 hc.read] at hproperties
  have hpet : TypeName.ofFile job.schema.absolute = "Pet" := of_decide_eq_true hname
  have hnaming : TypeName.IsNaming job.schema.absolute := by
    rw [← TypeName.ofFile_ne_empty_iff, hpet]
    decide
  obtain ⟨-, d, before, after, hdeclared, hd, htext⟩ := (hroot hproperties).1 hnaming
  rw [hpet] at hdeclared hd
  exact ⟨job, schema, o, document, d, hc, hwrote, hdeclared, hd, before, after, htext⟩

/-- A file without a letter or a digit before the point: the root is not in the output. -/
def underscoreDisk : Disk := .ofFiles [
  ("_.json", "\x7b\"properties\": \x7b\"name\": \x7b\"type\": \"string\"\x7d\x7d\x7d"),
  ("c.json", "\x7b\"addGenerationComment\": false\x7d")]

theorem underscoreFile_drops :
    (run Arguments.parse underscoreDisk ["_.json", "o", "-c", "c.json"]).outcome.exitCode = 0 ∧
    (run Arguments.parse underscoreDisk ["_.json", "o", "-c", "c.json"]).disk.text? "o" = some "\n" := by
  decide +kernel

end CommandLine

end ShapeSdl
