import ShapeSdl.Proofs.Refusals
import ShapeSdl.Proofs.Agree
import Mathlib.Tactic.Choose

/-!
# The blocks of a batch

All names of a batch are registered before the first declaration, and no declaration leaves anything
behind. A block depends on its own node and on the names only, neither on the blocks before it nor
on the order of the batch.

* `Compiling.ending x w` : how `x` ends, without the walk that it leaves behind;
* `compileBatch_ending` : a batch ends as its declarations end, each begun on its own;
* `compileBatch_perm` : a batch of different nodes in another order has the same blocks in that
  order;
* `compileBatch_eq_singles` : a batch ends as its nodes end when each of them is compiled alone, all
  names of the batch being given beforehand.
-/

namespace ShapeSdl

/-! ## How computations end -/

namespace Compiling

variable {α β : Type} {x : Compiling α} {k : α → Compiling β} {w w' : Walk}

def ending (x : Compiling α) (w : Walk) : Except Fault α :=
  match x w with
  | .ok a _ => .ok a
  | .error f _ => .error f

theorem ending_eq_ok {a : α} : x.ending w = .ok a ↔ ∃ u, x w = .ok a u := by
  unfold ending
  cases x w with
  | ok b u => simp
  | error f u => simp

theorem ending_lift (e : Except Fault α) : ending (liftM e) w = e := by
  cases e <;> rfl

theorem Steady.ending_eq (h : Steady x) (hw : w.active = w'.active) : x.ending w = x.ending w' := by
  have hend := h w w' (by rw [hw]; exact List.forall₂_same.2 fun _ _ => rfl)
  unfold ending
  generalize x w = r at hend ⊢
  generalize x w' = r' at hend ⊢
  cases hend <;> rfl

/-- What comes after a steady computation ends as if it had been begun in its place. -/
theorem ending_bind (hx : Steady x) (hk : ∀ a, Steady (k a)) :
    (x >>= k).ending w = x.ending w >>= fun a => (k a).ending w := by
  show (match EStateM.bind x k w with | .ok b _ => Except.ok b | .error f _ => .error f) = _
  unfold EStateM.bind
  cases hr : x w with
  | error f u =>
    unfold ending
    rw [hr]
    rfl
  | ok a u =>
    have hlater : (k a).ending u = (k a).ending w := (hk a).ending_eq (hx.active_eq hr)
    rw [show x.ending w = .ok a from ending_eq_ok.2 ⟨u, hr⟩]
    exact hlater

/-- Several steady computations end as each of them ends on its own. -/
theorem ending_mapM {k : α → Compiling β} (hk : ∀ a, Steady (k a)) : ∀ (l : List α),
    (l.mapM k).ending w = l.mapM fun a => (k a).ending w
  | [] => rfl
  | a :: rest => by
    have hrest := Steady.mapM hk rest
    rw [List.mapM_cons, List.mapM_cons,
      ending_bind (hk a) fun b => hrest.bind fun bs => .pure (b :: bs)]
    congr 1
    funext b
    rw [ending_bind hrest fun bs => .pure (b :: bs), ending_mapM hk rest]
    rfl

end Compiling

open Compiling (ending ending_lift ending_bind ending_mapM)

theorem compileSingle_ending {g : Graph} {o : Options} {name : String} {r : Ref} {w : Walk} :
    (compileSingle g o name r).ending w =
      o.registry >>= fun registry => (Context.declare ⟨g, registry, o⟩ name r).ending w := by
  have hdeclare : ∀ registry, Compiling.Steady (Context.declare ⟨g, registry, o⟩ name r) :=
    fun registry => Context.declare_steady _ name r
  unfold compileSingle
  rw [ending_bind (.lift _) fun registry => (Compiling.Agree.emit _).bind fun _ => hdeclare registry,
    ending_lift]
  congr 1
  funext registry
  exact ending_bind (.emit _) fun _ => hdeclare registry

/-- A batch ends as its parts end, each begun on its own. -/
theorem compileBatch_ending {g : Graph} {o : Options} {batch : Batch} {w : Walk} :
    (compileBatch g o batch).ending w = (do
      let registry ← o.batchRegistry batch
      if o.strict.isTruthy then Context.checkReferences ⟨g, registry, o⟩ batch
      batch.toList.mapM fun entry => (Context.declare ⟨g, registry, o⟩ entry.1 entry.2).ending w) := by
  have hdeclare : ∀ (registry : Registry) (entry : String × Ref),
      Compiling.Steady (Context.declare ⟨g, registry, o⟩ entry.1 entry.2) :=
    fun registry entry => Context.declare_steady _ entry.1 entry.2
  have hblocks := fun registry => Compiling.Steady.mapM (hdeclare registry) batch.toList
  have hstrict : ∀ registry, Compiling.Steady (do
      if o.strict.isTruthy then Context.checkReferences ⟨g, registry, o⟩ batch
      batch.toList.mapM fun entry => Context.declare ⟨g, registry, o⟩ entry.1 entry.2) := by
    intro registry
    dsimp only
    split
    · exact (Compiling.Agree.lift _).bind fun _ => hblocks registry
    · exact hblocks registry
  unfold compileBatch
  rw [ending_bind (.lift _) fun registry => (Compiling.Agree.emit _).bind fun _ => hstrict registry,
    ending_lift]
  congr 1
  funext registry
  rw [ending_bind (.emit _) fun _ => hstrict registry]
  show ending (do
      if o.strict.isTruthy then Context.checkReferences ⟨g, registry, o⟩ batch
      batch.toList.mapM fun entry => Context.declare ⟨g, registry, o⟩ entry.1 entry.2) w = _
  split
  · rw [ending_bind (.lift _) fun _ => hblocks registry, ending_lift, ending_mapM (hdeclare registry)]
  · exact ending_mapM (hdeclare registry) _

/-! ## Batches in another order -/

theorem Except.mapM_eq_ok_iff {α β ε : Type} {f : α → Except ε β} {l : List α} {bs : List β} :
    l.mapM f = .ok bs ↔ List.Forall₂ (fun a b => f a = .ok b) l bs := by
  induction l generalizing bs with
  | nil => cases bs <;> simp [pure, Except.pure]
  | cons a rest ih =>
    rw [List.mapM_cons]
    cases ha : f a with
    | error e => cases bs <;> simp [bind, Except.bind, ha]
    | ok b =>
      cases hrest : rest.mapM f with
      | error e => cases bs <;> simp [bind, Except.bind, ← ih, ha, hrest]
      | ok rest => cases bs <;> simp [bind, Except.bind, pure, Except.pure, ← ih, ha, hrest]

/-- A batch compiles exactly if strict mode has nothing against it and each of its entries has a
block. -/
theorem compileBatch_ending_eq_ok_iff {g : Graph} {o : Options} {batch : Batch} {document : Document}
    {w : Walk} : (compileBatch g o batch).ending w = .ok document ↔
      ∃ registry, o.batchRegistry batch = .ok registry ∧
        (o.strict.isTruthy = true → Context.checkReferences ⟨g, registry, o⟩ batch = .ok ()) ∧
        List.Forall₂ (fun entry d => (Context.declare ⟨g, registry, o⟩ entry.1 entry.2).ending w = .ok d)
          batch.toList document := by
  rw [compileBatch_ending]
  cases o.batchRegistry batch with
  | error f => simp [bind, Except.bind]
  | ok registry =>
    simp only [← Except.mapM_eq_ok_iff, Except.ok.injEq, exists_eq_left']
    dsimp only [bind, Except.bind]
    split
    · cases Context.checkReferences ⟨g, registry, o⟩ batch <;> simp [*]
    · simp [*]

/-- Whether names can be given beforehand does not depend on the batch. If no node has two names in
it, each node is registered under the same name in any order. -/
theorem Options.exists_same_of_perm {o : Options} {batch batch' : Batch} {registry : Registry}
    (hp : batch.toList.Perm batch'.toList) (hn : batch.values.Nodup)
    (h : o.batchRegistry batch = .ok registry) (g : Graph) : ∃ registry',
      o.batchRegistry batch' = .ok registry' ∧ Context.Same ⟨g, registry, o⟩ ⟨g, registry', o⟩ := by
  unfold batchRegistry at h ⊢
  cases hseed : o.registry with
  | error f => rw [hseed] at h; cases h
  | ok seed =>
    rw [hseed] at h
    cases h
    refine ⟨_, rfl, rfl, fun r => ?_, rfl, rfl⟩
    dsimp only [Registry.update]
    rw [Entries.get?_putAll, Entries.get?_putAll]
    congr 1
    have hperm := hp.map fun entry => (entry.2, some entry.1)
    apply Entries.lookup_perm ((List.reverse_perm _).trans (hperm.trans (List.reverse_perm _).symm))
    rw [List.map_reverse, List.nodup_reverse, List.map_map]
    exact hn

/-- Strict mode accepts the fields of a batch in any order. -/
theorem Context.Same.checkReferences_of_perm {cx cx' : Context} (S : Same cx cx')
    {batch batch' : Batch} (hp : batch.toList.Perm batch'.toList)
    (h : cx.checkReferences batch = .ok ()) : cx'.checkReferences batch' = .ok () := by
  rw [checkReferences_eq_ok_iff] at h ⊢
  intro entry hentry field hfield
  rw [← S.checkField_eq]
  rw [← S.graph] at hfield
  exact h entry (hp.mem_iff.2 hentry) field hfield

variable {g : Graph} {o : Options} {batch batch' : Batch} {document : Document} {w w' : Walk}

theorem exists_block_of_perm (hp : batch.toList.Perm batch'.toList) (hn : batch.values.Nodup)
    (hw : w.active = w'.active) (h : (compileBatch g o batch).ending w = .ok document) :
    ∃ block : String × Ref → Declaration, document = batch.toList.map block ∧
      (compileBatch g o batch').ending w' = .ok (batch'.toList.map block) := by
  obtain ⟨registry, hreg, hcheck, hblocks⟩ := compileBatch_ending_eq_ok_iff.1 h
  obtain ⟨registry', hreg', hsame⟩ := Options.exists_same_of_perm hp hn hreg g
  have hnonempty : Nonempty Declaration := ⟨.union "" []⟩
  have hex : ∀ entry ∈ batch.toList, ∃ d,
      (Context.declare ⟨g, registry, o⟩ entry.1 entry.2).ending w = .ok d := by
    intro entry hentry
    obtain ⟨d, -, hd⟩ := exists_mem_right hblocks hentry
    exact ⟨d, hd⟩
  choose! block hblock using hex
  have hall : List.Forall₂ (fun entry d =>
      (Context.declare ⟨g, registry, o⟩ entry.1 entry.2).ending w = .ok d)
      batch.toList (batch.toList.map block) :=
    List.forall₂_map_right_iff.2 (List.forall₂_same.2 hblock)
  refine ⟨block, ?_, compileBatch_ending_eq_ok_iff.2 ⟨registry', hreg', ?_, ?_⟩⟩
  · have hmap := (Except.mapM_eq_ok_iff.2 hblocks).symm.trans (Except.mapM_eq_ok_iff.2 hall)
    exact Except.ok.inj hmap
  · exact fun hs => hsame.checkReferences_of_perm hp (hcheck hs)
  · rw [List.forall₂_map_right_iff]
    refine List.forall₂_same.2 fun entry hentry => ?_
    rw [← hsame.declare_eq, ← (Context.declare_steady _ _ _).ending_eq hw]
    exact hblock entry (hp.mem_iff.2 hentry)

/-- The order of a batch of different nodes makes no difference: it compiles in every order or in
none, and the blocks are the same, in the order of the batch. -/
theorem compileBatch_perm (hp : batch.toList.Perm batch'.toList) (hn : batch.values.Nodup)
    (hw : w.active = w'.active) :
    ((∃ document, (compileBatch g o batch).ending w = .ok document) ↔
      ∃ document, (compileBatch g o batch').ending w' = .ok document) ∧
    ∀ document, (compileBatch g o batch).ending w = .ok document →
      ∃ block : String × Ref → Declaration, document = batch.toList.map block ∧
        (compileBatch g o batch').ending w' = .ok (batch'.toList.map block) := by
  have hn' : batch'.values.Nodup := (hp.map _).nodup_iff.1 hn
  refine ⟨⟨?_, ?_⟩, fun document h => exists_block_of_perm hp hn hw h⟩
  · rintro ⟨document, h⟩
    obtain ⟨block, -, h'⟩ := exists_block_of_perm hp hn hw h
    exact ⟨_, h'⟩
  · rintro ⟨document, h⟩
    obtain ⟨block, -, h'⟩ := exists_block_of_perm hp.symm hn' hw.symm h
    exact ⟨_, h'⟩

/-- An object with a list of objects, and these objects after it. -/
def tagsBatch : Batch := .ofList [("Main", some 0), ("Tag", some 2)]

/-- In the other order, the reference to the objects leads back and not forward. -/
theorem compileBatch_perm_tagged : ∃ block : String × Ref → Declaration,
    (compileBatch taggedGraph { strict := .bool true } tagsBatch).ending {} =
      .ok [block ("Main", some 0), block ("Tag", some 2)] ∧
    (compileBatch taggedGraph { strict := .bool true }
      (.ofList [("Tag", some 2), ("Main", some 0)])).ending {} =
        .ok [block ("Tag", some 2), block ("Main", some 0)] := by
  have hp : tagsBatch.toList.Perm
      (Entries.ofList [("Tag", some 2), ("Main", some 0)]).toList := List.Perm.swap ..
  have hn : tagsBatch.values.Nodup := by decide
  have h : (compileBatch taggedGraph { strict := .bool true } tagsBatch).ending {} =
      .ok [.type "Main" [("tags", .required (.list (.required (.named (.str "Tag")))))],
        .type "Tag" []] := rfl
  obtain ⟨block, hblock, h'⟩ := (compileBatch_perm hp hn rfl).2 _ h
  exact ⟨block, h.trans (congrArg Except.ok hblock), h'⟩

/-! ## Batches of one -/

theorem Except.map_mapM {α β γ ε : Type} (f : α → Except ε β) (h : β → γ) : ∀ (l : List α),
    (l.mapM f).map (List.map h) = l.mapM fun a => (f a).map h
  | [] => rfl
  | a :: rest => by
    rw [List.mapM_cons, List.mapM_cons, ← map_mapM f h rest]
    cases f a with
    | error e => rfl
    | ok b => cases rest.mapM f <;> rfl

/-- The block of a node that is compiled alone, the names of a registry being given beforehand. -/
def singleBlock (g : Graph) (o : Options) (registry : Registry) (entry : String × Ref) :
    Except Fault String :=
  ((compileSingle g { o with seeds := .pairs registry.toList } entry.1 entry.2).ending {}).map
    Declaration.text

/-- A node that is compiled alone has the declaration that it has in the batch. -/
theorem singleBlock_eq {registry : Registry} {entry : String × Ref} (hw : w.active = []) :
    singleBlock g o registry entry =
      ((Context.declare ⟨g, registry, o⟩ entry.1 entry.2).ending w).map Declaration.text := by
  have hregistry : Options.registry { o with seeds := .pairs registry.toList } = .ok registry :=
    congrArg Except.ok registry.ofPairs_toList
  have hsame : Context.Same ⟨g, registry, { o with seeds := .pairs registry.toList }⟩
      ⟨g, registry, o⟩ := ⟨rfl, fun _ => rfl, rfl, rfl⟩
  unfold singleBlock
  rw [compileSingle_ending, hregistry, ← hsame.declare_eq]
  exact congrArg _ ((Context.declare_steady _ _ _).ending_eq hw.symm)

/-- If strict mode is off, the document of a batch is made up of the blocks of its nodes, each of them
compiled alone with the names of the batch. If some of them cannot be compiled, the batch fails as
the first of these does. -/
theorem compileBatch_eq_singles (hstrict : o.strict.isTruthy = false) (hw : w.active = []) :
    ((compileBatch g o batch).ending w).map Document.text = (do
      let registry ← o.batchRegistry batch
      let blocks ← batch.toList.mapM (singleBlock g o registry)
      return Document.separator.intercalate blocks) ∧
    ∀ registry, o.batchRegistry batch = .ok registry → ∀ f,
      (compileBatch g o batch).ending w = .error f ↔
        ∃ before entry after, batch.toList = before ++ entry :: after ∧
          (∀ e ∈ before, ∃ block, singleBlock g o registry e = .ok block) ∧
          singleBlock g o registry entry = .error f := by
  have hblocks : ∀ registry, batch.toList.mapM (singleBlock g o registry) = (batch.toList.mapM
      fun entry => (Context.declare ⟨g, registry, o⟩ entry.1 entry.2).ending w).map
        (List.map Declaration.text) := by
    intro registry
    rw [Except.map_mapM]
    exact congrArg batch.toList.mapM (funext fun entry => singleBlock_eq hw)
  rw [compileBatch_ending]
  simp only [hstrict, Bool.false_eq_true, if_false]
  cases o.batchRegistry batch with
  | error f => exact ⟨rfl, nofun⟩
  | ok registry =>
    constructor
    · show Except.map Document.text (List.mapM _ _) = _
      dsimp only [bind, Except.bind]
      rw [hblocks]
      generalize List.mapM (m := Except Fault) _ batch.toList = result
      cases result <;> rfl
    · rintro _ ⟨⟩ f
      rw [← Except.mapM_eq_error_iff, hblocks]
      dsimp only [bind, Except.bind, pure, Except.pure]
      generalize List.mapM (m := Except Fault) _ batch.toList = result
      cases result <;> simp [Except.map]

/-- A batch that compiles, and one that fails as its list does. -/
theorem compileBatch_eq_singles_tagged :
    ((compileBatch taggedGraph {} tagsBatch).ending {}).map Document.text =
      .ok "type Main \x7b\n  tags: [Tag!]!\n\x7d\n\ntype Tag \x7b\n\x7d" ∧
    (compileBatch taggedGraph {} (tagsBatch.put "Tags" (some 1))).ending {} =
      .error (.structural (.notDeclarable "Tags" "ListNode")) := by
  constructor
  · rw [(compileBatch_eq_singles rfl rfl).1]
    rfl
  · refine ((compileBatch_eq_singles rfl rfl).2 _ rfl _).2
      ⟨[("Main", some 0), ("Tag", some 2)], ("Tags", some 1), [], rfl, ?_, rfl⟩
    simp only [List.forall_mem_cons]
    exact ⟨⟨_, rfl⟩, ⟨_, rfl⟩, nofun⟩

end ShapeSdl
