import ShapeSdl.Proofs.Declared

/-!
# Under which names nodes are declared

* `aliases_undeclared_iff` : no alias is declared, and no node has two names, exactly if no alias
  stands for a definition that is a union of one variant or a list of one type and can be declared;
* `declared_iff` : a definition that can be declared is declared under its type name exactly if no
  other definition or the root takes that name later.
-/

namespace ShapeSdl

/-! ## Registries of batches -/

theorem Options.get?_batchRegistry {o : Options} {batch : Batch} {registry : Registry}
    (h : o.batchRegistry batch = .ok registry) (hn : batch.values.Nodup) {name : String} {r : Ref}
    (hr : batch.get? name = some r) : registry.get? r = some name := by
  unfold Options.batchRegistry at h
  cases hseed : o.registry with
  | error f => rw [hseed] at h; cases h
  | ok seed =>
    rw [hseed] at h
    cases h
    have hkeys : ((batch.toList.map fun p => (p.2, some p.1)).reverse.map Prod.fst).Nodup := by
      rw [List.map_reverse, (List.reverse_perm _).nodup_iff, List.map_map]
      exact hn
    have hmem : (r, some name) ∈ (batch.toList.map fun p => (p.2, some p.1)).reverse :=
      List.mem_reverse.2 (List.mem_map.2 ⟨(name, r), Entries.mem_toList_iff.2 hr, rfl⟩)
    show ((seed.entries.putAll _).get? r).join = some name
    rw [Entries.get?_putAll]
    exact congrArg (fun v => (Option.or v _).join) (Entries.lookup_of_mem hkeys hmem)

/-! ## Aliases -/

section
variable {schema : Json} {s t : Session} {batch : Batch} {definitions : Definitions}

/-- No alias is declared, no node has two names, and every node is registered under its own name,
exactly if no alias stands for a declarable union of one variant or list of one type. -/
theorem aliases_undeclared_iff (hd : schema.definitions = .ok definitions)
    (h : readDocument schema "" s = .ok batch t) :
    batch = .ofList (t.graph.declared (t.nodes definitions)) ∧
    (((∀ d ∈ t.nodes definitions, definitions.isAlias d.1 = true →
          t.graph.declares (t.nodes definitions) d = false) ∧
        batch.values.Nodup ∧
        ∀ (o : Options) registry, o.batchRegistry batch = .ok registry →
          ∀ name r, batch.get? name = some r → registry.get? r = some name) ↔
      ∀ name root body id, definitions.isAlias name = true → definitions.Root name root →
        definitions.lookup root = some body → t.known.get? name = some id →
          t.graph.isDeclarable id = true → body.isSingle = false) := by
  obtain ⟨own, u, S, -, hk, hb⟩ := readDocument_batch hd (fun _ => rfl) h
  dsimp only at hb
  rw [if_neg fun hroot => hroot.2 rfl] at hb
  obtain ⟨rfl, rfl⟩ := hb
  refine ⟨rfl, fun ⟨hall, _⟩ name root body id ha hr hroot hname hdecl => ?_, fun hall => ?_⟩
  · rw [← Bool.not_eq_true]
    intro hs
    obtain ⟨d, hmem, had, hdec⟩ := S.exists_declares_alias hname hr hroot hs ha hdecl
    rw [hall d hmem had] at hdec
    cases hdec
  · have hnone : ∀ d ∈ u.nodes definitions, definitions.isAlias d.1 = true →
        u.graph.declares (u.nodes definitions) d = false := by
      intro d hmem ha
      have hname := (Session.mem_nodes.1 hmem).2
      obtain ⟨root, hr, -⟩ := S.rooted _ _ hname
      obtain ⟨body, hroot⟩ := hr.lookup
      cases hdecl : u.graph.isDeclarable d.2 with
      | false => rw [Graph.declares, hdecl, Bool.and_false]
      | true =>
        apply S.not_declares_alias hname hr hroot (hall _ _ _ _ ha hr hroot hname hdecl)
        rintro rfl
        rw [hr.isAlias] at ha
        cases ha
    have hself : ∀ name d, u.graph.lastDeclared (u.nodes definitions) name = some d →
        u.known.get? d.1 = some d.2 ∧ definitions.Root d.1 d.1 ∧ TypeName.pascal d.1 = name := by
      intro name d hlast
      obtain ⟨hmem, hdec, hname⟩ := Graph.mem_of_lastDeclared hlast
      have hkd := (Session.mem_nodes.1 hmem).2
      refine ⟨hkd, S.root_self hkd (Bool.eq_false_iff.2 fun ha => ?_), hname⟩
      rw [hnone d hmem ha] at hdec
      cases hdec
    have hn : (Entries.ofList (u.graph.declared (u.nodes definitions))).values.Nodup := by
      apply Entries.values_nodup
      intro name other r hr hr'
      rw [Graph.get?_declared, Option.map_eq_some_iff] at hr hr'
      obtain ⟨d, hlast, rfl⟩ := hr
      obtain ⟨d', hlast', he⟩ := hr'
      obtain ⟨hkd, hroot, rfl⟩ := hself name d hlast
      obtain ⟨hkd', hroot', rfl⟩ := hself other d' hlast'
      rw [Option.some.inj he] at hkd'
      rw [S.root_eq hkd hkd' hroot hroot']
    exact ⟨hnone, hn, fun o registry hreg name r hr => Options.get?_batchRegistry hreg hn hr⟩

/-- Definition `animal` is an alias of the object `pet`. -/
def objectAlias : Json := .obj [("$defs", .obj [
  ("animal", .obj [("$ref", .str "#/$defs/pet")]),
  ("pet", .obj [("type", .str "object"), ("properties", .obj [
    ("name", .obj [("type", .str "string")])])])])]

theorem aliases_undeclared_objectAlias : ∃ batch t, readDocument objectAlias "" {} = .ok batch t ∧
    batch.keys = ["Pet"] ∧ batch.values.Nodup := by
  obtain ⟨batch, t, h, ht⟩ := Reading.exists_ok (x := readDocument objectAlias "" {})
    (p := fun batch _ => decide (batch.keys = ["Pet"])) (by decide +kernel)
  obtain ⟨definitions, hd, hall⟩ : ∃ definitions, objectAlias.definitions = .ok definitions ∧
      ∀ d ∈ definitions, d.2.isSingle = false := ⟨_, rfl, by decide +kernel⟩
  refine ⟨batch, t, h, of_decide_eq_true ht, ?_⟩
  refine ((aliases_undeclared_iff hd h).2.2 fun name root body id _ _ hroot _ _ => ?_).2.1
  exact hall _ (Definitions.mem_of_lookup hroot)

/-- Definition `animal` is an alias of the union `pet`, whose only variant is an object. -/
def variantAlias : Json := .obj [("$defs", .obj [
  ("pet", .obj [("oneOf", .arr [.obj [("type", .str "object"), ("properties", .obj [
    ("name", .obj [("type", .str "string")])])]])]),
  ("animal", .obj [("$ref", .str "#/$defs/pet")])])]

/-- An alias may be declared beside the definition that it stands for. -/
theorem variantAlias_declared : ∃ batch t, readDocument variantAlias "" {} = .ok batch t ∧
    batch.get? "Pet" = some (some 2) ∧ batch.get? "Animal" = some (some 2) := by
  obtain ⟨batch, t, h, ht⟩ := Reading.exists_ok (x := readDocument variantAlias "" {})
    (p := fun batch _ => decide (batch.get? "Pet" = some (some 2) ∧
      batch.get? "Animal" = some (some 2))) (by decide +kernel)
  exact ⟨batch, t, h, of_decide_eq_true ht⟩

end

/-! ## Names that are taken twice -/

/-- An outline that hands on the node of a definition, at once or by aliases. -/
def Outline.HandsOn (definitions : Definitions) (o : Outline) (name : String) : Prop :=
  ∃ ref path next, o = .reference ref path ∧ ref.referred? = some next ∧
    definitions.Root next name

section
variable {schema : Json} {root : String} {s t u : Session} {batch : Batch}
  {definitions : Definitions} {own : String → List NodeId} {name : String} {id id' : NodeId}
  {o : Outline}

/-- What is read after the definitions has the node of a definition only if it hands it on. -/
theorem Settled.handsOn_iff (S : Settled definitions own u)
    (h : Reads definitions [] (.one (.outline o)) u [id'] t) (hk : u.known.get? name = some id)
    (ha : definitions.isAlias name = false) : id' = id ↔ o.HandsOn definitions name := by
  have hself := S.root_self hk ha
  obtain ⟨own', mine, S', hl⟩ := S.read h
  have hkt := (h.grows S.sane).1.known name id hk
  cases ho : o.isReference with
  | true =>
    obtain ⟨ref, path, rfl⟩ := Outline.isReference_iff.1 ho
    cases h with
    | reference means _ inside =>
      have hnext := inside.known_of_definition S.sane
      constructor
      · rintro rfl
        obtain ⟨r, hr, -⟩ := S'.rooted _ _ hnext
        cases S'.root_eq hnext hkt hr hself
        exact ⟨ref, path, _, rfl, means, hr⟩
      · rintro ⟨_, _, _, ⟨⟩, means', hr⟩
        cases means.symm.trans means'
        exact Option.some.inj ((S'.known_root hnext hr).symm.trans hkt)
  | false =>
    refine iff_of_false ?_ ?_
    · rintro rfl
      have hne : ∀ ref path, o ≠ .reference ref path := by
        rintro ref path rfl
        cases ho
      obtain ⟨path, hp⟩ := hl.task.path? hne
      obtain ⟨⟨inner, rfl⟩, -⟩ := hl.task.last hp
      have hge := hl.mine_ge id' (List.mem_append_right _ (List.mem_singleton_self _))
      exact Nat.not_lt_of_le hge (S.sane name id' hk)
    · rintro ⟨ref, path, -, rfl, -⟩
      cases ho

/-- A definition is declared under its type name exactly if what takes this name last is the
definition itself, or hands on its node: the root if it applies under that name, else the last
declared definition of that name. -/
theorem declared_iff (hd : schema.definitions = .ok definitions)
    (h : readDocument schema root s = .ok batch t) (hk : t.known.get? name = some id)
    (ha : definitions.isAlias name = false) :
    batch.get? (TypeName.pascal name) = some (some id) ↔
      if ((schema.get? "properties").isSome ∧ root ≠ "") ∧
          TypeName.pascal root = TypeName.pascal name then
        (schema.outline "#").HandsOn definitions name
      else ∃ d, t.graph.lastDeclared (t.nodes definitions) (TypeName.pascal name) = some d ∧
        definitions.Root d.1 name := by
  obtain ⟨own', S'⟩ := readDocument_settled hd h
  obtain ⟨own, u, S, hg, hknows, hb⟩ := readDocument_batch hd (fun _ => rfl) h
  have hself := S'.root_self hk ha
  have hlast : (Entries.ofList (t.graph.declared (t.nodes definitions))).get?
      (TypeName.pascal name) = some (some id) ↔
        ∃ d, t.graph.lastDeclared (t.nodes definitions) (TypeName.pascal name) = some d ∧
          definitions.Root d.1 name := by
    rw [Graph.get?_declared, Option.map_eq_some_iff]
    refine exists_congr fun d => and_congr_right fun hl => ?_
    have hkd := (Session.mem_nodes.1 (Graph.mem_of_lastDeclared hl).1).2
    constructor
    · intro he
      rw [Option.some.inj he] at hkd
      obtain ⟨r, hr, -⟩ := S'.rooted _ _ hkd
      cases S'.root_eq hkd hk hr hself
      exact hr
    · intro hr
      exact (S'.known_root hkd hr).symm.trans hk
  dsimp only at hb
  split at hb <;> rename_i happ
  · obtain ⟨id', hi, rfl⟩ := hb
    rw [Entries.get?_put]
    by_cases hp : TypeName.pascal root = TypeName.pascal name
    · rw [if_pos hp.symm, if_pos ⟨happ, hp⟩, Option.some.injEq, Option.some.injEq]
      refine S.handsOn_iff hi ?_ ha
      obtain ⟨body, hl⟩ := hself.lookup
      obtain ⟨j, hj⟩ := hknows _ (Definitions.mem_of_lookup hl)
      rw [hj, ← hg.known _ _ hj, hk]
    · rw [if_neg (Ne.symm hp), if_neg fun h => hp h.2, hlast]
  · obtain ⟨rfl, rfl⟩ := hb
    rw [if_neg fun h => happ h.1, hlast]

/-- The root takes the name of definition `pet` when it is read as `Pet`. -/
def rootNamesake : Json := .obj [
  ("$defs", .obj [("pet", .obj [("type", .str "object"), ("properties", .obj [
    ("a", .obj [("type", .str "string")])])])]),
  ("properties", .obj [("b", .obj [("type", .str "string")])])]

theorem declared_iff_rootNamesake : ∃ batch t,
    readDocument rootNamesake "owner" {} = .ok batch t ∧
      batch.get? (TypeName.pascal "pet") = some (some 0) := by
  obtain ⟨definitions, hd, ha⟩ : ∃ definitions, rootNamesake.definitions = .ok definitions ∧
      definitions.isAlias "pet" = false := ⟨_, rfl, by decide +kernel⟩
  obtain ⟨batch, t, h, ht⟩ := Reading.exists_ok (x := readDocument rootNamesake "owner" {})
    (p := fun _ t => decide (t.known.get? "pet" = some 0 ∧
      t.graph.lastDeclared [("pet", 0)] (TypeName.pascal "pet") = some ("pet", 0)))
    (by decide +kernel)
  obtain ⟨hk, hlast⟩ := of_decide_eq_true ht
  obtain ⟨own, S⟩ := readDocument_settled hd h
  have hnodes : t.nodes definitions = [("pet", 0)] := by
    cases hd
    exact Session.nodes_cons hk []
  refine ⟨batch, t, h, (declared_iff hd h hk ha).2 ?_⟩
  rw [if_neg (by decide +kernel), hnodes]
  exact ⟨("pet", 0), hlast, S.root_self hk ha⟩

/-- The node of a declarable definition may be under no name at all. -/
theorem rootNamesake_lost : ∃ batch t, readDocument rootNamesake "pet" {} = .ok batch t ∧
    t.known.get? "pet" = some 0 ∧ t.graph.isDeclarable 0 = true ∧ some 0 ∉ batch.values := by
  obtain ⟨batch, t, h, ht⟩ := Reading.exists_ok (x := readDocument rootNamesake "pet" {})
    (p := fun batch t => decide (t.known.get? "pet" = some 0 ∧ t.graph.isDeclarable 0 = true ∧
      some 0 ∉ batch.values)) (by decide +kernel)
  exact ⟨batch, t, h, of_decide_eq_true ht⟩

end

end ShapeSdl
