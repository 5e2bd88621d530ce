import ShapeSdl.Options
import Mathlib.Data.List.Induction

/-!
# Options out of a configuration, and back

* `OptionKey.spellings` : the names under which a configuration may hold an option;
* `OptionKey.lastIn?` : the value of the last entry for an option;
* `foldl_readEntry` : reading entries leaves every option its last value, and the seed names alone;
* `ofConfiguration_of_toConfiguration` : the configuration of options gives back all but their seed
  names;
* `configuration_exact` : what a configuration gives, alone and with its seed names, and that
  options come back from their own configuration and from being passed on.
-/

namespace ShapeSdl

namespace OptionKey

/-- The names under which a configuration may hold an option. -/
def spellings : OptionKey → List String
  | scalars => ["scalars"]
  | types => ["types"]
  | strict => ["strict"]
  | preserveEnumCase => ["preserve_enum_case", "preserveEnumCase"]
  | addGenerationComment => ["add_generation_comment", "addGenerationComment"]

theorem ofSpelling?_eq_some_iff {name : String} {key : OptionKey} :
    ofSpelling? name = some key ↔ name ∈ key.spellings := by
  constructor
  · intro h
    unfold ofSpelling? ofName? at h
    split at h
    · cases h; decide
    · cases h; decide
    · split at h <;> cases h <;> decide
  · intro h
    cases key <;> simp only [spellings, List.mem_cons, List.not_mem_nil, or_false] at h
    · subst h; rfl
    · subst h; rfl
    · subst h; rfl
    · rcases h with rfl | rfl <;> rfl
    · rcases h with rfl | rfl <;> rfl

def lastIn? (key : OptionKey) (entries : List (String × Json)) : Option Json :=
  (entries.reverse.find? fun entry => entry.1 ∈ key.spellings).map Prod.snd

theorem lastIn?_append_singleton (key : OptionKey) (entries : List (String × Json))
    (entry : String × Json) : key.lastIn? (entries ++ [entry]) =
      if ofSpelling? entry.1 = some key then some entry.2 else key.lastIn? entries := by
  by_cases h : entry.1 ∈ key.spellings <;> simp [lastIn?, ofSpelling?_eq_some_iff, h]

end OptionKey

namespace Options

theorem foldl_readEntry (o : Options) (entries : List (String × Json)) :
    entries.foldl readEntry o = {
      scalars := (OptionKey.scalars.lastIn? entries).getD o.scalars
      seeds := o.seeds
      strict := (OptionKey.strict.lastIn? entries).getD o.strict
      preserveEnumCase := (OptionKey.preserveEnumCase.lastIn? entries).getD o.preserveEnumCase
      addGenerationComment :=
        (OptionKey.addGenerationComment.lastIn? entries).getD o.addGenerationComment } := by
  induction entries using List.reverseRecOn with
  | nil => rfl
  | append_singleton entries entry ih =>
    rw [List.foldl_append, ih]
    simp only [OptionKey.lastIn?_append_singleton, List.foldl_cons, List.foldl_nil, readEntry]
    cases OptionKey.ofSpelling? entry.1 with
    | none => simp
    | some key => cases key <;> simp [set]

theorem ofConfiguration_obj (entries : List (String × Json)) :
    ofConfiguration (.obj entries) = .ok {
      scalars := (OptionKey.scalars.lastIn? entries).getD (.obj [])
      seeds := .none
      strict := (OptionKey.strict.lastIn? entries).getD (.bool false)
      preserveEnumCase := (OptionKey.preserveEnumCase.lastIn? entries).getD (.bool false)
      addGenerationComment :=
        (OptionKey.addGenerationComment.lastIn? entries).getD (.bool true) } :=
  congrArg Except.ok (foldl_readEntry {} entries)

/-- Both spellings of a key count, and the later one wins. -/
example : ofConfiguration (.obj [("preserveEnumCase", .bool true), ("registry", .obj []),
    ("types", .null), ("preserve_enum_case", .int 0), ("strict", .bool true)]) =
      .ok { preserveEnumCase := .int 0, strict := .bool true } := by
  rfl

/-! ## The configuration of options -/

theorem ofConfiguration_of_toConfiguration {o : Options} {c : Json}
    (h : o.toConfiguration = .ok c) : ∃ entries, entriesOf o.scalars = .ok entries ∧
      ofConfiguration c = .ok { o with scalars := .obj entries, seeds := .none } := by
  unfold toConfiguration at h
  cases entries : entriesOf o.scalars with
  | error fault => rw [entries] at h; exact nomatch h
  | ok overrides =>
    rw [entries] at h
    cases h
    exact ⟨overrides, rfl, rfl⟩

/-- Overrides that are an object already make a configuration, and it gives the options back. -/
theorem exists_toConfiguration {o : Options} {overrides : List (String × Json)}
    (hscalars : o.scalars = .obj overrides) (hseeds : o.seeds = .none) :
    ∃ c, o.toConfiguration = .ok c ∧ ofConfiguration c = .ok o := by
  obtain ⟨c, h⟩ : ∃ c, o.toConfiguration = .ok c := by
    rw [toConfiguration, hscalars]; exact ⟨_, rfl⟩
  obtain ⟨entries, hentries, hc⟩ := ofConfiguration_of_toConfiguration h
  rw [hscalars] at hentries
  cases hentries
  rw [← hscalars, ← hseeds] at hc
  exact ⟨c, h, hc⟩

/-! ## Passing options on -/

theorem coerce_configuration {value : Json} {o : Options} (h : ofConfiguration value = .ok o)
    (names : Option (List (Ref × Option String))) :
    (OptionsForm.configuration value names).coerce =
      .ok { o with seeds := .ofConfiguration value names } := by
  rw [OptionsForm.coerce, h]; rfl

theorem seeds_ofConfiguration_obj (d : Entries String Json) :
    Seeds.ofConfiguration (.obj d.toList) none =
      ((d.get? "types").map Seeds.ofJson).getD .none := by
  change Seeds.ofJson ((d.get? "types").getD .null) = _
  cases d.get? "types" <;> rfl

/-- A configuration gives every option the value of its last entry, or else its default, and no seed
names; as a form of options it is taken with its own seed names. Options without seed names and with
an object of overrides are what their configuration gives, and options that were taken from any form
are taken as they are. -/
theorem configuration_exact :
    (∀ d : Entries String Json, ofConfiguration (.obj d.toList) = .ok {
      scalars := (OptionKey.scalars.lastIn? d.toList).getD (.obj [])
      seeds := .none
      strict := (OptionKey.strict.lastIn? d.toList).getD (.bool false)
      preserveEnumCase := (OptionKey.preserveEnumCase.lastIn? d.toList).getD (.bool false)
      addGenerationComment :=
        (OptionKey.addGenerationComment.lastIn? d.toList).getD (.bool true) }) ∧
    (∀ (o : Options) (overrides : List (String × Json)),
      o.scalars = .obj overrides → o.seeds = .none →
        ∃ c, o.toConfiguration = .ok c ∧ ofConfiguration c = .ok o) ∧
    (∀ (d : Entries String Json) (names : Option (List (Ref × Option String))),
      ∃ o, ofConfiguration (.obj d.toList) = .ok o ∧
        (OptionsForm.configuration (.obj d.toList) names).coerce =
          .ok { o with seeds := match names with
            | some names => .pairs names
            | none => ((d.get? "types").map Seeds.ofJson).getD .none }) ∧
    ∀ (form : OptionsForm) (o : Options),
      form.coerce = .ok o → (OptionsForm.options o).coerce = .ok o := by
  refine ⟨fun d => ofConfiguration_obj d.toList, fun o overrides => exists_toConfiguration,
    fun d names => ⟨_, ofConfiguration_obj d.toList, ?_⟩, fun form o _ => rfl⟩
  rw [coerce_configuration (ofConfiguration_obj d.toList)]
  cases names with
  | some names => rfl
  | none => rw [seeds_ofConfiguration_obj]

theorem configuration_exact_override :
    (∃ c, toConfiguration { scalars := .obj [("uuid", .str "ID")], strict := .bool true } = .ok c ∧
      ofConfiguration c = .ok { scalars := .obj [("uuid", .str "ID")], strict := .bool true }) ∧
    (OptionsForm.options { strict := .int 1, seeds := .data (.arr []) }).coerce =
      .ok { strict := .int 1, seeds := .data (.arr []) } :=
  ⟨configuration_exact.2.1 _ _ rfl rfl,
    configuration_exact.2.2.2
      (.configuration (.obj [("types", .arr []), ("strict", .int 1)]) none) _ rfl⟩

end Options

end ShapeSdl
