import ShapeSdl.Proofs.Circles
import ShapeSdl.Proofs.Follows
import ShapeSdl.Proofs.Replay
import ShapeSdl.Proofs.Restated

/-!
# Documents that are read side by side

What is declared of a document is declared of another one that has been read beside it, and what
compiles of the one compiles of the other.

* `Casting.Twinned` : the same names for nodes and their twins;
* `Replay.declared` : what is declared side by side;
* `Replay.follows` : what has been read side by side has the same names;
* `Follows.declares`, `Follows.checkReferences_eq` : twins are declared alike, and strict mode says the
  same of them;
* `Json.ReadBeside`, `ReadBeside.read` : two documents that can be read side by side, and their batches;
* `Replay.compiles` : what compiles, so does what has been read beside it;
* `Restates.compiles`, `Restates.refuses` : what compiles does so in other words, to the same, and what
  strict mode refuses it refuses in other words.
-/

namespace ShapeSdl

/-! ## Nodes that are twins -/

/-- The same names for nodes and their twins, in the same order. -/
abbrev Casting.Twinned (C : Casting) (l l' : List (String × Ref)) : Prop :=
  List.Forall₂ (fun p q => p.1 = q.1 ∧ Ref.Rel (C .twin) p.2 q.2) l l'

theorem Graph.isDeclarable_of_isObject {g : Graph} {id : NodeId} (h : g.isObject (some id) = true) :
    g.isDeclarable id = true := by
  obtain ⟨fields, hs⟩ := Graph.isObject_iff.1 h
  rw [Graph.isDeclarable, hs]

theorem Casting.isDeclarable_eq {C : Casting} {g g' : Graph}
    (hr : ∀ i j, C.Firm i j → C.Resembles g g' i j) {i j : NodeId} (h : C.Firm i j) :
    g.isDeclarable i = g'.isDeclarable j := by
  have hobject : ∀ i j, C.Firm i j → g.isObject (some i) = g'.isObject (some j) := by
    intro i j hij
    obtain ⟨a, b, ha, hb, hab⟩ := hr i j hij
    rw [Graph.isObject_of_shape? ha, Graph.isObject_of_shape? hb, hab.isObject_eq]
  obtain ⟨a, b, ha, hb, hab⟩ := hr i j h
  rw [Graph.isDeclarable, Graph.isDeclarable, ha, hb]
  cases hab with
  | @union is js inside =>
    have hall : (is.map some).all g.isObject = (js.map some).all g'.isObject := by
      clear ha hb
      induction inside with
      | nil => rfl
      | cons hfirst _ ih => rw [List.map_cons, List.all_cons, hobject _ _ hfirst, ih]; rfl
    have he : is.isEmpty = js.isEmpty := by cases inside <;> rfl
    simp only [List.isEmpty_map, he, hall]
  | leaf isLeaf => cases a <;> first | rfl | cases isLeaf
  | wrapper | list | object => rfl

theorem Context.isDeclarable_of_declare {cx : Context} {name : String} {i : NodeId} {w u : Walk}
    {d : Declaration} (h : cx.declare name (some i) w = .ok d u) : cx.graph.isDeclarable i = true := by
  have hmembers : ∀ {variants : List Ref} {index : Nat} {members : List String},
      cx.unionMembers name index variants = .ok members → variants.all cx.graph.isObject = true := by
    intro variants
    induction variants with
    | nil => exact fun _ => rfl
    | cons r rest ih =>
      intro index members hm
      unfold unionMembers at hm
      split at hm
      · cases hrest : cx.unionMembers name (index + 1) rest with
        | error f => rw [hrest] at hm; cases hm
        | ok more => rw [List.all_cons, ih hrest, ‹cx.graph.isObject r = true›]; rfl
      · cases hm
  unfold declare at h
  rw [Graph.isDeclarable]
  cases hs : cx.graph.shape? (some i) with
  | none => rw [hs] at h; cases h
  | some shape =>
    rw [hs] at h
    cases shape with
    | object | enumeration => rfl
    | union variants =>
      dsimp only at h ⊢
      split at h
      · cases h
      · rename_i hne
        obtain ⟨members, v, hlift, -⟩ := Fault.bind_eq_ok.1 h
        rw [hmembers (Compiling.lift_eq_ok.1 hlift).1, Bool.eq_false_iff.2 hne]
        rfl
    | _ => cases h

/-! ## Definitions -/

section
variable {exchange : Exchange} {ds ds' : Definitions} {e s s' : Session} {i j : NodeId}
  {name target : String} {own own' : String → List NodeId}

theorem Definitions.Restated.rewritten (H : ds.Restated ds' exchange)
    (notPlain : ∀ name, exchange = .inlined name → ¬ ds.IsPlain name)
    (notObject : ∀ name id, exchange = .inlined name → e.known.get? name = some id →
      e.graph.isObject (some id) = false) : Rewritten ds ds' exchange e where
  each name body h := by
    obtain ⟨body', h', hplain, hsame⟩ := H name body h
    exact ⟨body', h', hplain, (hsame _ _).recast⟩
  notPlain := notPlain
  notObject := notObject

/-- Outlines that stand at one place: the same reference, or two nodes at the same path. -/
inductive Outline.Colocated : Outline → Outline → Prop
  | reference {ref path path'} : Colocated (.reference ref path) (.reference ref path')
  | other {o o'} (left : o.isReference = false) (right : o'.isReference = false)
      (path : o.path? = o'.path?) : Colocated o o'

theorem Outline.Colocated.path?_eq {o o' : Outline} (h : o.Colocated o') : o.path? = o'.path? := by
  cases h with
  | reference => rfl
  | other _ _ path => exact path

/-- Every definition is there, at its place. -/
def Definitions.Colocated (ds ds' : Definitions) : Prop :=
  ∀ name body, ds.lookup name = some body → ∃ body', ds'.lookup name = some body' ∧
    (body.outline (Definitions.path name)).Colocated (body'.outline (Definitions.path name))

/-- A chain of aliases leads to the definition at the same place. -/
theorem Definitions.Colocated.root (H : ds.Colocated ds') (h : ds.Root name target) :
    ds'.Root name target := by
  induction h with
  | @self name body defined stays =>
    obtain ⟨body', h', hsame⟩ := H name body defined
    generalize ho : body.outline (Definitions.path name) = o at hsame stays
    generalize ho' : body'.outline (Definitions.path name) = o' at hsame
    cases hsame with
    | reference => cases stays
    | other _ right => exact .self h' (ho' ▸ right)
  | @step name body ref at_ next root defined hands means _ ih =>
    obtain ⟨body', h', hsame⟩ := H name body defined
    rw [hands] at hsame
    generalize ho' : body'.outline (Definitions.path name) = o' at hsame
    cases hsame with
    | reference => exact .step h' ho' means ih
    | other left => cases left

theorem Definitions.Restated.colocated (H : ds.Restated ds' exchange) : ds.Colocated ds' := by
  intro name body h
  obtain ⟨body', h', -, hsame⟩ := H name body h
  obtain ⟨hrecast, hpath⟩ := hsame (Definitions.path name) (Definitions.path name)
  refine ⟨body', h', ?_⟩
  generalize body.outline (Definitions.path name) = o at hrecast hpath
  generalize body'.outline (Definitions.path name) = o' at hrecast hpath
  cases hrecast with
  | reference => exact .reference
  | _ => exact .other rfl rfl (hpath rfl)

variable {C : Casting} {spare : NodeId → Prop}

/-- Two nodes of one definition. -/
structure Paired (exchange : Exchange) (C : Casting) (s s' : Session) (d d' : String × NodeId) :
    Prop where
  name : d.1 = d'.1
  left : s.known.get? d.1 = some d.2
  right : s'.known.get? d'.1 = some d'.2
  meets : C.Meets exchange s d.2 d'.2

/-- The nodes of a definition stand at the same place in both readings. -/
theorem Definitions.Colocated.isOwn_eq (H : ds.Colocated ds') (S : Settled ds own s)
    (S' : Settled ds' own' s') {d d' : String × NodeId} (h : Paired exchange C s s' d d') :
    s.graph.isOwn d = s'.graph.isOwn d' := by
  obtain ⟨name, i⟩ := d
  obtain ⟨name', j⟩ := d'
  obtain ⟨hname, hi, hj, -⟩ := h
  change name = name' at hname
  subst hname
  obtain ⟨target, hr, -⟩ := S.rooted name i hi
  obtain ⟨body, hd⟩ := hr.lookup
  obtain ⟨body', hd', hsame⟩ := H target body hd
  obtain ⟨n, hn, hp⟩ := S.path_eq hi hr hd
  obtain ⟨n', hn', hp'⟩ := S'.path_eq hj (H.root hr) hd'
  have hpath : n.path = n'.path := Option.some.inj (hp.symm.trans (hsame.path?_eq.trans hp'))
  rw [Graph.isOwn, Graph.isOwn, hn, hn', Option.any_some, Option.any_some, hpath]

/-- The definitions have their nodes in both readings. -/
theorem Replay.nodes (P : Replay ds exchange s spare C s s') (hk : ∀ d ∈ ds, s'.Knows d.1) :
    List.Forall₂ (Paired exchange C s s') (s.nodes ds) (s'.nodes ds) := by
  have hall : ∀ l : Definitions, l ⊆ ds →
      List.Forall₂ (Paired exchange C s s') (s.nodes l) (s'.nodes l) := by
    intro l hl
    induction l with
    | nil => exact .nil
    | cons d rest ih =>
      obtain ⟨hd, hrest⟩ := List.cons_subset.1 hl
      obtain ⟨j, hj⟩ := hk d hd
      obtain ⟨i, hi, hij⟩ := P.known' d.1 j (Definitions.isSome_lookup hd) hj
      rw [Session.nodes_cons hi, Session.nodes_cons hj]
      exact .cons ⟨rfl, hi, hj, hij⟩ (ih hrest)
  exact hall ds (List.Subset.refl ds)

/-- Of what can be declared, if something is inlined, one node is the only twin of the other. -/
theorem Casting.Meets.twin (h : C.Meets exchange s i j)
    (hinlined : ∀ name id, exchange = .inlined name → s.known.get? name = some id →
      s.graph.isDeclarable id = false)
    (hd : ∀ name, exchange = .inlined name → s.graph.isDeclarable i = true) : C .twin i j := by
  rcases h with htwin | ⟨-, name, hin, hk⟩
  · exact htwin
  · have hdecl := hd name hin
    rw [hinlined name i hin hk] at hdecl
    cases hdecl

/-- Of the two nodes of a definition both are declared or none. In the second reading there may be
other definitions, whose nodes are not cast. -/
theorem Replay.declares_eq (P : Replay ds exchange s spare C s s')
    (hinlined : ∀ name id, exchange = .inlined name → s.known.get? name = some id →
      s.graph.isDeclarable id = false)
    (hown : ∀ d d', Paired exchange C s s' d d' → s.graph.isOwn d = s'.graph.isOwn d')
    (hk : ∀ d ∈ ds, s'.Knows d.1) {extra : List (String × NodeId)} (hextra : ∀ d ∈ extra, spare d.2)
    {d d' : String × NodeId} (h : Paired exchange C s s' d d') :
    s.graph.declares (s.nodes ds) d = s'.graph.declares (s'.nodes ds ++ extra) d' := by
  have hdecl := Casting.isDeclarable_eq P.resembles h.meets.firm
  rw [Graph.declares, Graph.declares, hown d d' h, ← hdecl]
  cases hd : s.graph.isDeclarable d.2 with
  | false => rw [Bool.and_false, Bool.and_false]
  | true =>
    have htwin := h.meets.twin hinlined fun _ _ => hd
    have hnodes := P.nodes hk
    congr 3
    rw [Bool.eq_iff_iff, List.contains_iff_mem, List.contains_iff_mem]
    constructor
    · intro hmem
      obtain ⟨⟨other, k⟩, hk, hkd⟩ := List.mem_map.1 hmem
      obtain ⟨hk, hkown⟩ := List.mem_filter.1 hk
      obtain ⟨⟨other', l⟩, hl, hkl⟩ := exists_mem_right hnodes hk
      subst hkd
      obtain ⟨role, hrole⟩ := hkl.meets.firm.cast
      obtain ⟨-, rfl⟩ := P.alone _ _ _ _ htwin hrole
      refine List.mem_map.2 ⟨(other', d'.2), List.mem_filter.2 ⟨List.mem_append_left _ hl, ?_⟩, rfl⟩
      rw [← hown _ _ hkl]
      exact hkown
    · intro hmem
      obtain ⟨⟨other', l⟩, hl, hld⟩ := List.mem_map.1 hmem
      obtain ⟨hl, hlown⟩ := List.mem_filter.1 hl
      subst hld
      rcases List.mem_append.1 hl with hl | hl
      · obtain ⟨⟨other, k⟩, hk, hkl⟩ := exists_mem_left hnodes hl
        obtain ⟨role, hrole⟩ := hkl.meets.firm.cast
        obtain ⟨-, rfl⟩ := P.role_eq _ _ _ _ _ htwin hrole
        refine List.mem_map.2 ⟨(other, d.2), List.mem_filter.2 ⟨hk, ?_⟩, rfl⟩
        rw [hown _ _ hkl]
        exact hlown
      · exact absurd htwin ((P.spared _ (hextra _ hl)).2 _ _)

/-- What is declared of a document is declared of one that is read beside it, and of the other
definitions what is declared on its own. -/
theorem Replay.declared (P : Replay ds exchange s spare C s s')
    (hinlined : ∀ name id, exchange = .inlined name → s.known.get? name = some id →
      s.graph.isDeclarable id = false)
    (hown : ∀ d d', Paired exchange C s s' d d' → s.graph.isOwn d = s'.graph.isOwn d')
    (hk : ∀ d ∈ ds, s'.Knows d.1) (extra : List (String × NodeId)) (hextra : ∀ d ∈ extra, spare d.2) :
    ∃ l, C.Twinned (s.graph.declared (s.nodes ds)) l ∧
      s'.graph.declared (s'.nodes ds ++ extra) = l ++
        (extra.filter (s'.graph.declares (s'.nodes ds ++ extra))).map
          fun d => (TypeName.pascal d.1, some d.2) := by
  refine ⟨((s'.nodes ds).filter (s'.graph.declares (s'.nodes ds ++ extra))).map
    fun d => (TypeName.pascal d.1, some d.2), ?_, ?_⟩
  · have hfilter := List.rel_filter (p := s.graph.declares (s.nodes ds))
      (q := s'.graph.declares (s'.nodes ds ++ extra))
      (fun d d' h => by dsimp only; rw [P.declares_eq hinlined hown hk hextra h]) (P.nodes hk)
    rw [Graph.declared_eq, Casting.Twinned, List.forall₂_map_left_iff, List.forall₂_map_right_iff]
    refine forall₂_imp_of_mem hfilter fun d hd d' h =>
      ⟨congrArg TypeName.pascal h.name, .some ?_⟩
    obtain ⟨-, hdeclares⟩ := List.mem_filter.1 hd
    exact h.meets.twin hinlined fun _ _ => (Bool.and_eq_true_iff.1 hdeclares).2
  · rw [Graph.declared_eq, List.filter_append, List.map_append]

/-! ## Names -/

namespace Entries

variable {α α' β : Type} [DecidableEq α] [DecidableEq α']

theorem get?_ofList_congr {k : α} {k' : α'} {l : List (α × β)} {l' : List (α' × β)}
    (h : List.Forall₂ (fun p q => (k = p.1 ↔ k' = q.1) ∧ p.2 = q.2) l l') :
    (ofList l).get? k = (ofList l').get? k' := by
  rw [get?_ofList, get?_ofList]
  replace h := List.forall₂_reverse_iff.2 h
  generalize l.reverse = xs at h ⊢
  generalize l'.reverse = ys at h ⊢
  induction h with
  | nil => rfl
  | @cons p q _ _ hfirst _ ih =>
    obtain ⟨a, b⟩ := p
    obtain ⟨a', b'⟩ := q
    obtain ⟨hkey, hvalue⟩ := hfirst
    change b = b' at hvalue
    rw [lookup_cons_ite, lookup_cons_ite, ih, hvalue, if_congr hkey rfl rfl]

theorem get?_ofList_between {xs ys zs : List (α × β)} {k : α} (h : (ofList ys).get? k = none) :
    (ofList (xs ++ ys ++ zs)).get? k = (ofList (xs ++ zs)).get? k := by
  rw [get?_ofList] at h
  rw [get?_ofList, get?_ofList, List.reverse_append, List.reverse_append, List.reverse_append,
    List.lookup_append, List.lookup_append, List.lookup_append, h, Option.none_or]

end Entries

theorem Batch.named_registry (batch : Batch) : batch.registry.Named := by
  refine Registry.Named.empty.update fun p hp => ?_
  obtain ⟨entry, -, rfl⟩ := List.mem_map.1 hp
  rfl

/-- Nodes that are cast for each other have the same names. Only twins have any. -/
theorem Replay.registry (P : Replay ds exchange e spare C s s') {batch batch' : Batch}
    {l l' extra : List (String × Ref)} (h : C.Twinned batch.toList (l ++ l'))
    (h' : batch'.toList = l ++ extra ++ l') (hextra : ∀ p ∈ extra, ∃ j, p.2 = some j ∧ spare j)
    {role : Role} (hij : C role i j) :
    batch.registry.get? (some i) = batch'.registry.get? (some j) ∧
      (role = .stand → batch.registry.get? (some i) = none) := by
  have hmeet : ∀ {a b : Ref}, Ref.Rel (C .twin) a b → (some i = a ↔ some j = b) := by
    rintro _ _ ⟨hab⟩
    rw [Option.some_inj, Option.some_inj]
    constructor
    · rintro rfl
      exact (P.alone _ _ _ _ hab hij).2
    · rintro rfl
      exact (P.role_eq _ _ _ _ _ hij hab).2
  have hnone : (Entries.ofList (extra.map fun p => (p.2, some p.1))).get? (some j) = none := by
    rw [Option.eq_none_iff_forall_ne_some]
    intro name hname
    obtain ⟨q, hq, hqj⟩ := List.mem_map.1 (Entries.mem_of_get?_ofList hname)
    obtain ⟨k, hk, hspare⟩ := hextra q hq
    cases hk.symm.trans (Prod.ext_iff.1 hqj).1
    exact (P.spared _ hspare).2 _ _ hij
  have hlookup : (Entries.ofList (batch.toList.map fun p => (p.2, some p.1))).get? (some i) =
      (Entries.ofList (batch'.toList.map fun p => (p.2, some p.1))).get? (some j) := by
    rw [h', List.map_append, List.map_append, Entries.get?_ofList_between hnone, ← List.map_append]
    apply Entries.get?_ofList_congr
    rw [List.forall₂_map_left_iff, List.forall₂_map_right_iff]
    exact h.imp fun p q hpq => ⟨hmeet hpq.2, congrArg some hpq.1⟩
  refine ⟨by rw [Batch.get?_registry, Batch.get?_registry, hlookup], ?_⟩
  rintro rfl
  rw [Option.eq_none_iff_forall_ne_some]
  intro name hname
  obtain ⟨⟨_, r⟩, -, -, hrel⟩ := exists_mem_right h
    (Entries.mem_toList_iff.2 (Batch.get?_of_registry hname))
  cases hrel with
  | some hab => cases (P.alone _ _ _ _ hab hij).1

/-- What has been read side by side has the same names. -/
theorem Replay.follows (P : Replay ds exchange s spare C s s') {first : NodeId} {batch batch' : Batch}
    (hordered : s'.Ordered ds' first) (hfirst : first = 0)
    (hnames : ∀ role i j, C role i j →
      batch.registry.get? (some i) = batch'.registry.get? (some j) ∧
        (role = .stand → batch.registry.get? (some i) = none)) (o : Options) :
    Context.Follows ⟨s.graph, batch.registry, o⟩ C ⟨s'.graph, batch'.registry, o⟩ where
  resembles := P.resembles
  standIn := P.standIn
  name i j h := by
    obtain ⟨role, hrole⟩ := h.cast
    exact (hnames role i j hrole).1
  nameless i j h := by
    obtain ⟨heq, hnone⟩ := hnames _ i j h
    exact ⟨hnone rfl, heq.symm.trans (hnone rfl)⟩
  options := rfl
  older j k hjk := by
    obtain ⟨_, ⟨⟩, -, hlt⟩ := hordered.steps (hfirst ▸ Nat.zero_le j) (.single hjk)
    exact hlt

end

/-! ## Compiling -/

theorem Except.forM_congr {α β ε : Type} {f : α → Except ε Unit} {g : β → Except ε Unit} {l : List α}
    {l' : List β} (h : List.Forall₂ (fun a b => f a = g b) l l') : l.forM f = l'.forM g := by
  induction h with
  | nil => rfl
  | cons hfirst _ ih =>
    rw [List.forM_eq_forM, List.forM_eq_forM] at ih ⊢
    rw [List.forM_cons, List.forM_cons, hfirst, ih]

namespace Context.Follows

variable {C : Casting} {cx cx' : Context} {l l' : List (String × Ref)} {document : Document} {w : Walk}

theorem declares (F : cx.Follows C cx') (hw : w.active = [])
    (hfields : ∀ i j, C .twin i j → C.Fields (cx.graph.fields (some i)) (cx'.graph.fields (some j)))
    (h : C.Twinned l l')
    (hd : List.Forall₂ (fun entry d => (cx.declare entry.1 entry.2).ending w = .ok d) l document) :
    List.Forall₂ (fun entry d => (cx'.declare entry.1 entry.2).ending w = .ok d) l' document := by
  induction h generalizing document with
  | nil =>
    cases hd
    exact .nil
  | @cons p q _ _ hpq _ ih =>
    cases hd with
    | cons hfirst hrest =>
      refine .cons ?_ (ih hrest)
      obtain ⟨name, r⟩ := p
      obtain ⟨name', r'⟩ := q
      obtain ⟨hname, ⟨hij⟩⟩ := hpq
      change name = name' at hname
      subst hname
      obtain ⟨u, hu⟩ := Compiling.ending_eq_ok.1 hfirst
      exact Compiling.ending_eq_ok.2 (F.declare name (.inl hij) (hfields _ _ hij) hw hu)

theorem checkReferences_eq (F : cx.Follows C cx') (hn : cx.registry.Named) (hn' : cx'.registry.Named)
    (hfields : ∀ i j, C .twin i j → C.Fields (cx.graph.fields (some i)) (cx'.graph.fields (some j)))
    {batch batch' : Batch} (h : C.Twinned batch.toList batch'.toList) :
    cx.checkReferences batch = cx'.checkReferences batch' := by
  refine Except.forM_congr (h.imp ?_)
  rintro ⟨type, r⟩ ⟨type', r'⟩ ⟨hname, hij⟩
  change type = type' at hname
  subst hname
  change Ref.Rel (C .twin) r r' at hij
  obtain ⟨hij⟩ := hij
  rename_i i j
  have hrelated := hfields i j hij
  obtain ⟨a, b, ha, hb, hab⟩ := F.resembles i j (.inl hij)
  unfold Graph.fields at hrelated
  rw [ha, hb] at hrelated
  dsimp only
  rw [ha, hb]
  cases hab with
  | leaf isLeaf => cases a <;> first | rfl | cases isLeaf
  | wrapper | list | union => rfl
  | object =>
    refine Except.forM_congr (List.Forall₂.imp ?_ hrelated)
    rintro ⟨key, v⟩ ⟨key', v'⟩ ⟨hkey, hcast⟩
    change key = key' at hkey
    subst hkey
    change Ref.Rel C.Cast v v' at hcast
    obtain ⟨hcast⟩ := hcast
    exact F.checkField_eq hn hn' type key hcast

end Context.Follows

/-! ## Documents -/

section
variable {exchange : Exchange} {ds ds' : Definitions} {e s s' t u u' : Session} {C : Casting}
  {spare : NodeId → Prop} {ids : List NodeId} {id : NodeId} {o o' : Outline} {name : String}
  {own : String → List NodeId}

theorem Replay.begin (ds : Definitions) (exchange : Exchange) (e s s' : Session) :
    Replay ds exchange e (fun _ => False) (fun _ _ _ => False) s.begin s'.begin where
  lt := nofun
  spared := nofun
  role_eq := nofun
  alone := nofun
  resembles := fun _ _ h => h.elim nofun nofun
  standIn := nofun
  fields := nofun
  known := nofun
  known' := nofun
  formed := nofun

/-- What has been read of the definitions is read of them in other words. -/
theorem Reads.replay_definitions (R : Rewritten ds ds' exchange e)
    (h : Reads ds [] (.all ds.jobs) s.begin ids u) (he : u.Precedes e) (s' : Session) :
    ∃ C ids' u', Reads ds' [] (.all ds.jobs) s'.begin ids' u' ∧
      Replay ds exchange e (fun _ => False) C u u' := by
  have hjobs : Task.Recast ds exchange .firm (.all ds.jobs) (.all ds.jobs) := by
    refine .all (List.forall₂_same.2 fun job hjob => ?_)
    obtain ⟨d, -, rfl⟩ := List.mem_map.1 hjob
    exact .definition
  obtain ⟨C, ids', u', hd⟩ := h.replay R hjobs (.begin ds exchange e s s') (List.Subset.refl _)
    ⟨s.sane_begin, nofun⟩ he
  exact ⟨C, ids', u', hd.reads, hd.replay⟩

/-- What has been read of the root is read of it in other words. -/
theorem Reads.replay_root (R : Rewritten ds ds' exchange e) (P : Replay ds exchange e spare C u u')
    (hs : u.Sane) (hsame : o.Recast ds exchange .firm o')
    (h : Reads ds [] (.one (.outline o)) u [id] t) (he : t.Precedes e) :
    ∃ D j t', Reads ds' [] (.one (.outline o')) u' [j] t' ∧ Replay ds exchange e spare D t t' ∧
      D.Meets exchange e id j := by
  obtain ⟨D, ids', t', hd⟩ := h.replay R (.one (.outline hsame)) P (List.Subset.refl _)
    ⟨hs, nofun⟩ he
  obtain ⟨j, rfl⟩ := List.length_eq_one_iff.1 hd.fits.length_eq.symm
  exact ⟨D, j, t', hd.reads, hd.replay, (List.forall₂_cons.1 hd.fits).1.meets rfl rfl⟩

theorem Reads.knows_definition (h : Reads ds [] (.all ds.jobs) s ids u) (hs : s.Sane) {d : String × Json}
    (hd : d ∈ ds) : u.Knows d.1 :=
  h.knows hs d.1 (List.mem_flatMap.2 ⟨.definition d.1, List.mem_map_of_mem hd,
    List.mem_singleton_self _⟩)

/-- What is declared of the definitions does not change while the root is read. -/
theorem Reads.declared_eq (h : Reads ds [] (.all ds.jobs) s.begin ids u) (hg : u.Grows t) :
    u.graph.declared ((ds.map Prod.fst).zip ids) = t.graph.declared (t.nodes ds) := by
  obtain ⟨own, -, S, -⟩ := (Settled.begin ds s).read h
  have hk : ∀ d ∈ ds, u.Knows d.1 := fun d hd => h.knows_definition s.sane_begin hd
  rw [h.nodes_eq s.sane_begin, Session.nodes_grows hk hg, S.declared_grows hg.toGrows]

/-- A document is read in two stages, and its batch is found in the last session. -/
theorem readDocument_eq_ok_iff_stages {schema : Json} {root : String} {batch : Batch}
    (hd : schema.definitions = .ok ds) : readDocument schema root s = .ok batch t ↔ ∃ ids u,
      Reads ds [] (.all ds.jobs) s.begin ids u ∧ u.Grows t ∧
      let declared := Entries.ofList (t.graph.declared (t.nodes ds))
      if (schema.get? "properties").isSome ∧ root ≠ "" then
        ∃ id, Reads ds [] (.one (.outline (schema.outline "#"))) u [id] t ∧
          batch = declared.put (TypeName.pascal root) (some id)
      else batch = declared ∧ u = t := by
  rw [readDocument_eq_ok_iff]
  constructor
  · rintro ⟨_, ids, u, hd', hr, h⟩
    cases hd.symm.trans hd'
    have hg : u.Grows t := by
      dsimp only at h
      split at h
      · obtain ⟨id, hi, -⟩ := h
        exact (hi.grows (hr.sane s.sane_begin)).1
      · rw [h.2]
        exact .refl t
    rw [hr.declared_eq hg] at h
    exact ⟨ids, u, hr, hg, h⟩
  · rintro ⟨ids, u, hr, hg, h⟩
    rw [← hr.declared_eq hg] at h
    exact ⟨ds, ids, u, hd, hr, h⟩

theorem Settled.isObject_of_isPlain (S : Settled ds own s) (hp : ds.IsPlain name)
    (hk : s.known.get? name = some id) : s.graph.isObject (some id) = true := by
  obtain ⟨body, nodes, hd, -, hb⟩ := S.built name id hk List.not_mem_nil
  obtain ⟨body', hd', hplain⟩ := hp
  cases hd.symm.trans hd'
  obtain ⟨entries, -, ho⟩ := Json.outline_of_isPlainObject hplain
  rw [ho] at hb
  generalize own name = mine at hb
  generalize body.fieldsOutline (Definitions.path name) = fields at hb
  cases fields with
  | error f => cases hb
  | ok fields =>
    cases hb with
    | object _ node => exact Graph.isObject_of_shape? (Graph.shape?_of_node? node)

end

/-- Without seed names, a batch has its own names. -/
theorem Options.batchRegistry_eq {o : Options} (hseeds : o.registry = .ok ∅) (batch : Batch) :
    o.batchRegistry batch = .ok batch.registry := by
  rw [Options.batchRegistry, hseeds]
  rfl

/-- What compiles starts from a registry. -/
theorem Compilation.exists_registry {schema : Json} {root : String} {o : Options} {document : Document}
    (h : (ofSchema schema root o).result = .ok document) : ∃ registry, o.registry = .ok registry := by
  obtain ⟨batch, t, w, -, hc⟩ := result_eq_ok_iff.1 h
  obtain ⟨registry, hreg, -⟩ := compileBatch_ending_eq_ok_iff.1 (Compiling.ending_eq_ok.2 ⟨w, hc⟩)
  cases hr : o.registry with
  | ok seeds => exact ⟨seeds, rfl⟩
  | error f =>
    rw [Options.batchRegistry, hr] at hreg
    cases hreg

theorem Compilation.result_eq_ok_iff_blocks {schema : Json} {root : String} {o : Options}
    {document : Document} (hseeds : o.registry = .ok ∅) :
    (ofSchema schema root o).result = .ok document ↔ ∃ batch t,
      readDocument schema root {} = .ok batch t ∧
        (o.strict.isTruthy = true →
          Context.checkReferences ⟨t.graph, batch.registry, o⟩ batch = .ok ()) ∧
        List.Forall₂ (fun entry d =>
          (Context.declare ⟨t.graph, batch.registry, o⟩ entry.1 entry.2).ending {} = .ok d)
            batch.toList document := by
  constructor
  · intro h
    obtain ⟨batch, t, w, hread, hc⟩ := result_eq_ok_iff.1 h
    obtain ⟨registry, hreg, hcheck, hblocks⟩ := compileBatch_ending_eq_ok_iff.1
      (Compiling.ending_eq_ok.2 ⟨w, hc⟩)
    cases hreg.symm.trans (o.batchRegistry_eq hseeds batch)
    exact ⟨batch, t, hread, hcheck, hblocks⟩
  · rintro ⟨batch, t, hread, hcheck, hblocks⟩
    obtain ⟨w, hw⟩ := Compiling.ending_eq_ok.1 (compileBatch_ending_eq_ok_iff.2
      ⟨_, o.batchRegistry_eq hseeds batch, hcheck, hblocks⟩)
    exact result_eq_ok_iff.2 ⟨batch, t, w, hread, hw⟩

/-- Two documents: what is read of the first one, into session `t`, can be read of the second one
beside it. -/
structure Json.ReadBeside (exchange : Exchange) (schema schema' : Json) (ds ds' : Definitions)
    (t : Session) : Prop where
  left : schema.definitions = .ok ds
  right : schema'.definitions = .ok ds'
  names_eq : ds.map Prod.fst = ds'.map Prod.fst
  colocated : ds.Colocated ds'
  applies : (schema.get? "properties").isSome = (schema'.get? "properties").isSome
  definitions : ∀ {ids u}, Reads ds [] (.all ds.jobs) (Session.begin {}) ids u → u.Precedes t →
    ∃ C ids' u', Reads ds' [] (.all ds.jobs) (Session.begin {}) ids' u' ∧
      Replay ds exchange t (fun _ => False) C u u'
  root : ∀ {C u u' id}, Replay ds exchange t (fun _ => False) C u u' → u.Sane → u'.Sane →
    Reads ds [] (.one (.outline (schema.outline "#"))) u [id] t →
      ∃ D j t', Reads ds' [] (.one (.outline (schema'.outline "#"))) u' [j] t' ∧
        Replay ds exchange t (fun _ => False) D t t' ∧ D.Meets exchange t id j

section
variable {exchange : Exchange} {schema schema' : Json} {ds ds' : Definitions} {root : String}
  {batch batch' : Batch} {t t' : Session}

/-- The second document can be read, and the twins of what is in the one batch are in the other. -/
theorem Json.ReadBeside.read (H : ReadBeside exchange schema schema' ds ds' t)
    (hinlined : ∀ name id, exchange = .inlined name → t.known.get? name = some id →
      t.graph.isDeclarable id = false)
    (hdeclarable : ∀ name id, exchange = .inlined name → some id ∈ batch.values →
      t.graph.isDeclarable id = true)
    (h : readDocument schema root {} = .ok batch t) : ∃ batch' t' C,
      readDocument schema' root {} = .ok batch' t' ∧ Replay ds exchange t (fun _ => False) C t t' ∧
        C.Twinned batch.toList batch'.toList := by
  obtain ⟨own, S⟩ := readDocument_settled H.left h
  obtain ⟨ids, u, hr, hg, hbatch⟩ := (readDocument_eq_ok_iff_stages H.left).1 h
  have hu : u.Sane := hr.sane (Session.sane_begin {})
  obtain ⟨C, ids', u', hr', P⟩ := H.definitions hr hg.precedes
  have hu' : u'.Sane := hr'.sane (Session.sane_begin {})
  have hjobs : ds.jobs = ds'.jobs := by
    have hmap := congrArg (List.map Job.definition) H.names_eq
    rwa [List.map_map, List.map_map] at hmap
  have hnodes : ∀ t' : Session, t'.nodes ds = t'.nodes ds' := by
    intro t'
    have hmap := congrArg (List.filterMap fun name => (t'.known.get? name).map fun id => (name, id))
      H.names_eq
    rwa [List.filterMap_map, List.filterMap_map] at hmap
  -- Whatever the root gives, what is declared of the definitions is declared in both readings.
  have hdeclared : ∀ {D : Casting} {batch' : Batch} {t' : Session},
      readDocument schema' root {} = .ok batch' t' → Replay ds exchange t (fun _ => False) D t t' →
        D.Twinned (t.graph.declared (t.nodes ds)) (t'.graph.declared (t'.nodes ds')) := by
    intro D batch' t' h' P'
    obtain ⟨own', S'⟩ := readDocument_settled H.right h'
    obtain ⟨_, v, hv, hgv, -⟩ := (readDocument_eq_ok_iff_stages H.right).1 h'
    have hk : ∀ d ∈ ds, t'.Knows d.1 := by
      intro d hd
      have hmem : d.1 ∈ ds'.map Prod.fst := H.names_eq ▸ List.mem_map_of_mem hd
      obtain ⟨d', hd', hname⟩ := List.mem_map.1 hmem
      rw [← hname]
      exact hgv.knows (hv.knows_definition (Session.sane_begin {}) hd')
    obtain ⟨l, hl, heq⟩ := P'.declared hinlined (fun _ _ hp => H.colocated.isOwn_eq S S' hp) hk
      [] nofun
    rw [List.append_nil, List.filter_nil, List.map_nil, List.append_nil, hnodes] at heq
    rwa [heq]
  have hkeys : ∀ {D : Casting} (p q : String × Ref), p.1 = q.1 ∧ Ref.Rel (D .twin) p.2 q.2 →
      p.1 = q.1 := fun _ _ h => h.1
  dsimp only at hbatch
  split at hbatch <;> rename_i happ
  · obtain ⟨i, hi, rfl⟩ := hbatch
    obtain ⟨D, j, t', hj, P', hij⟩ := H.root P hu hu' hi
    have hgt : u'.Grows t' := (hj.grows hu').1
    have h' : readDocument schema' root {} = .ok ((Entries.ofList (t'.graph.declared
        (t'.nodes ds'))).put (TypeName.pascal root) (some j)) t' := by
      refine (readDocument_eq_ok_iff_stages H.right).2 ⟨ids', u', hjobs ▸ hr', hgt, ?_⟩
      dsimp only
      rw [if_pos (H.applies ▸ happ)]
      exact ⟨j, hj, rfl⟩
    refine ⟨_, t', D, h', P', ?_⟩
    have htwin := hij.twin hinlined fun name hin => hdeclarable name i hin (List.mem_map.2
      ⟨(TypeName.pascal root, some i), Entries.mem_toList_iff.2 (Entries.get?_put_self ..), rfl⟩)
    exact Entries.forall₂_putPair hkeys (Entries.forall₂_putAll hkeys .nil (hdeclared h' P'))
      ⟨rfl, .some htwin⟩
  · obtain ⟨rfl, rfl⟩ := hbatch
    have h' : readDocument schema' root {} =
        .ok (Entries.ofList (u'.graph.declared (u'.nodes ds'))) u' := by
      refine (readDocument_eq_ok_iff_stages H.right).2 ⟨ids', u', hjobs ▸ hr', .refl u', ?_⟩
      dsimp only
      rw [if_neg (H.applies ▸ happ)]
      exact ⟨rfl, rfl⟩
    exact ⟨_, u', C, h', P, Entries.forall₂_putAll hkeys .nil (hdeclared h' P)⟩

theorem Replay.followsDocument (P : Replay ds exchange t (fun _ => False) C t t')
    (hd' : schema'.definitions = .ok ds') (h' : readDocument schema' root {} = .ok batch' t')
    (htwins : C.Twinned batch.toList batch'.toList) (o : Options) :
    Context.Follows ⟨t.graph, batch.registry, o⟩ C ⟨t'.graph, batch'.registry, o⟩ := by
  have hleft : C.Twinned batch.toList (batch'.toList ++ []) := by rwa [List.append_nil]
  have hright : batch'.toList = batch'.toList ++ [] ++ [] := by rw [List.append_nil, List.append_nil]
  exact P.follows (readDocument_ordered hd' h').1 rfl
    (fun role i j hij => P.registry hleft hright nofun hij) o

theorem Compilation.isDeclarable_of_result {o : Options} {document : Document}
    (hseeds : o.registry = .ok ∅) (h : (ofSchema schema root o).result = .ok document)
    (hread : readDocument schema root {} = .ok batch t) {id : NodeId} (hid : some id ∈ batch.values) :
    t.graph.isDeclarable id = true := by
  obtain ⟨_, _, hread', -, hdeclare⟩ := (result_eq_ok_iff_blocks hseeds).1 h
  cases hread.symm.trans hread'
  obtain ⟨⟨name, _⟩, hmem, rfl⟩ := List.mem_map.1 hid
  obtain ⟨d, -, hd⟩ := exists_mem_right hdeclare hmem
  obtain ⟨u, hu⟩ := Compiling.ending_eq_ok.1 hd
  exact Context.isDeclarable_of_declare hu

/-- What compiles, so does what has been read beside it, to the same. -/
theorem Replay.compiles (P : Replay ds exchange t (fun _ => False) C t t')
    (hd' : schema'.definitions = .ok ds') (hread : readDocument schema root {} = .ok batch t)
    (hread' : readDocument schema' root {} = .ok batch' t')
    (htwins : C.Twinned batch.toList batch'.toList) {o : Options} (hseeds : o.registry = .ok ∅)
    {document : Document} (h : (Compilation.ofSchema schema root o).result = .ok document) :
    (Compilation.ofSchema schema' root o).result = .ok document := by
  obtain ⟨_, _, hread'', hcheck, hdeclare⟩ := (Compilation.result_eq_ok_iff_blocks hseeds).1 h
  cases hread.symm.trans hread''
  have F := P.followsDocument hd' hread' htwins o
  refine (Compilation.result_eq_ok_iff_blocks hseeds).2 ⟨batch', t', hread', fun hs => ?_,
    F.declares rfl P.fields htwins hdeclare⟩
  exact (F.checkReferences_eq batch.named_registry batch'.named_registry P.fields htwins).symm.trans
    (hcheck hs)

end

namespace Json.Restates

variable {exchange : Exchange} {schema schema' : Json} {ds ds' : Definitions} {root : String}
  {batch : Batch} {t : Session}

/-- What is inlined is no object, so the definitions are rewritten. -/
theorem rewritten (H : Restates exchange schema schema' ds ds')
    (hinlined : ∀ name id, exchange = .inlined name → t.known.get? name = some id →
      t.graph.isDeclarable id = false)
    (h : readDocument schema root {} = .ok batch t) : Rewritten ds ds' exchange t := by
  obtain ⟨own, S⟩ := readDocument_settled H.left h
  obtain ⟨ids, u, hr, hg, -⟩ := (readDocument_eq_ok_iff_stages H.left).1 h
  have hnone : ∀ name id, exchange = .inlined name → t.known.get? name = some id →
      t.graph.isObject (some id) = false := by
    intro name id hin hid
    rw [Bool.eq_false_iff]
    intro hobject
    have hdecl := Graph.isDeclarable_of_isObject hobject
    rw [hinlined name id hin hid] at hdecl
    cases hdecl
  refine H.restated.rewritten (fun name hin hp => ?_) hnone
  obtain ⟨body, hbody, -⟩ := id hp
  obtain ⟨i, hi⟩ := hg.knows (hr.knows_definition (Session.sane_begin {})
    (Definitions.mem_of_lookup hbody))
  have hobject := S.isObject_of_isPlain hp hi
  rw [hnone name i hin hi] at hobject
  cases hobject

/-- What is read of a document can be read of one that says the same. -/
theorem readBeside (H : Restates exchange schema schema' ds ds')
    (hinlined : ∀ name id, exchange = .inlined name → t.known.get? name = some id →
      t.graph.isDeclarable id = false)
    (h : readDocument schema root {} = .ok batch t) :
    ReadBeside exchange schema schema' ds ds' t where
  left := H.left
  right := H.right
  names_eq := H.names_eq
  colocated := H.restated.colocated
  applies := H.applies
  definitions hr he := hr.replay_definitions (H.rewritten hinlined h) he {}
  root P hu _ hi := hi.replay_root (H.rewritten hinlined h) P hu (H.root "#" "#").recast (.refl t)

/-- What compiles does so in other words, to the same. -/
theorem compiles (H : Restates exchange schema schema' ds ds') {o : Options}
    (hseeds : o.registry = .ok ∅)
    (hinlined : ∀ name batch t id, exchange = .inlined name →
      readDocument schema root {} = .ok batch t → t.known.get? name = some id →
        t.graph.isDeclarable id = false)
    {document : Document} (h : (Compilation.ofSchema schema root o).result = .ok document) :
    (Compilation.ofSchema schema' root o).result = .ok document := by
  obtain ⟨batch, t, hread, -⟩ := (Compilation.result_eq_ok_iff_blocks hseeds).1 h
  have hundeclared := fun name id hin hid => hinlined name batch t id hin hread hid
  obtain ⟨batch', t', C, hread', P, htwins⟩ := (H.readBeside hundeclared hread).read hundeclared
    (fun _ id _ => Compilation.isDeclarable_of_result hseeds h hread) hread
  exact P.compiles H.right hread hread' htwins hseeds h

end Json.Restates

end ShapeSdl
