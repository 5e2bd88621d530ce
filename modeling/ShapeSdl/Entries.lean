/-!
# Entries in order of first insertion

* `Entries α β` : an association list in which no key occurs twice;
* `put` : a new key goes to the end, a key already there keeps its place and takes the new value
  (`get?_put`, `keys_put_of_mem`, `keys_put_of_notMem`);
* `putAll`, `ofList` : the same for a list of pairs, in order. Writing is associative
  (`putAll_putAll`).

Fields of an object, the declarations of a batch and the names of a registry are all entries of
this kind: their order shows in the output.
-/

namespace ShapeSdl

universe u v w

/-- Pairs of a key and a value in order of first insertion, no key twice. -/
structure Entries (α : Type u) (β : Type v) where
  toList : List (α × β)
  nodup_keys : (toList.map Prod.fst).Nodup
deriving DecidableEq

namespace Entries

variable {α : Type u} {β : Type v}

theorem ext_toList {e f : Entries α β} (h : e.toList = f.toList) : e = f := by
  cases e; cases f; cases h; rfl

def empty : Entries α β := ⟨[], List.nodup_nil⟩

instance : Inhabited (Entries α β) := ⟨empty⟩
instance : EmptyCollection (Entries α β) := ⟨empty⟩

def keys (e : Entries α β) : List α := e.toList.map Prod.fst

def values (e : Entries α β) : List β := e.toList.map Prod.snd

def size (e : Entries α β) : Nat := e.toList.length

theorem keys_nodup (e : Entries α β) : e.keys.Nodup := e.nodup_keys

@[simp] theorem toList_empty : (∅ : Entries α β).toList = [] := rfl

@[simp] theorem length_keys (e : Entries α β) : e.keys.length = e.size := by
  simp [keys, size]

/-! ## Insertion -/

variable [DecidableEq α]

/-- Pairs with `v` under `k`: in the place of the old value if there is one, else at the end. -/
def putPair (k : α) (v : β) : List (α × β) → List (α × β)
  | [] => [(k, v)]
  | (k', v') :: rest => if k' = k then (k, v) :: rest else (k', v') :: putPair k v rest

theorem map_fst_putPair_of_mem {k : α} {v : β} : ∀ {xs : List (α × β)},
    k ∈ xs.map Prod.fst → (putPair k v xs).map Prod.fst = xs.map Prod.fst
  | (k', v') :: rest, h => by
    by_cases hk : k' = k
    · simp [putPair, hk]
    · have hr : k ∈ rest.map Prod.fst := by
        simpa [Ne.symm hk] using h
      simp only [putPair, hk, if_false, List.map_cons, map_fst_putPair_of_mem hr]

theorem putPair_of_notMem {k : α} {v : β} : ∀ {xs : List (α × β)},
    k ∉ xs.map Prod.fst → putPair k v xs = xs ++ [(k, v)]
  | [], _ => rfl
  | (k', v') :: rest, h => by
    simp only [List.map_cons, List.mem_cons, not_or] at h
    simp only [putPair, Ne.symm h.1, if_false, putPair_of_notMem h.2, List.cons_append]

theorem nodup_putPair {k : α} {v : β} {xs : List (α × β)} (h : (xs.map Prod.fst).Nodup) :
    ((putPair k v xs).map Prod.fst).Nodup := by
  by_cases hk : k ∈ xs.map Prod.fst
  · rw [map_fst_putPair_of_mem hk]; exact h
  · rw [putPair_of_notMem hk, List.map_append, List.nodup_append]
    exact ⟨h, by simp, fun a ha b hb => by
      simp only [List.map_cons, List.map_nil, List.mem_singleton] at hb
      rintro rfl; exact hk (hb ▸ ha)⟩

/-- Writes `v` under `k`. A new key goes to the end, an old one keeps its place. -/
def put (e : Entries α β) (k : α) (v : β) : Entries α β :=
  ⟨putPair k v e.toList, nodup_putPair e.nodup_keys⟩

def putAll (e : Entries α β) (pairs : List (α × β)) : Entries α β :=
  pairs.foldl (fun e p => e.put p.1 p.2) e

/-- The entries that writing the pairs in order leaves: first place, last value. -/
def ofList (pairs : List (α × β)) : Entries α β := (∅ : Entries α β).putAll pairs

@[simp] theorem putAll_nil (e : Entries α β) : e.putAll [] = e := rfl

@[simp] theorem putAll_cons (e : Entries α β) (p : α × β) (ps : List (α × β)) :
    e.putAll (p :: ps) = (e.put p.1 p.2).putAll ps := rfl

theorem putAll_append (e : Entries α β) (ps qs : List (α × β)) :
    e.putAll (ps ++ qs) = (e.putAll ps).putAll qs := List.foldl_append

theorem keys_put_of_mem {e : Entries α β} {k : α} {v : β} (h : k ∈ e.keys) :
    (e.put k v).keys = e.keys := map_fst_putPair_of_mem h

theorem toList_put_of_notMem {e : Entries α β} {k : α} {v : β} (h : k ∉ e.keys) :
    (e.put k v).toList = e.toList ++ [(k, v)] := putPair_of_notMem h

theorem keys_put_of_notMem {e : Entries α β} {k : α} {v : β} (h : k ∉ e.keys) :
    (e.put k v).keys = e.keys ++ [k] := by
  rw [keys, toList_put_of_notMem h]; simp [keys]

theorem mem_keys_put {e : Entries α β} {k j : α} {v : β} :
    j ∈ (e.put k v).keys ↔ j = k ∨ j ∈ e.keys := by
  by_cases hk : k ∈ e.keys
  · rw [keys_put_of_mem hk]
    constructor
    · exact Or.inr
    · rintro (rfl | h)
      · exact hk
      · exact h
  · rw [keys_put_of_notMem hk, List.mem_append, List.mem_singleton]
    exact Or.comm

theorem mem_keys_putAll {k : α} : ∀ {ps : List (α × β)} {e : Entries α β},
    k ∈ (e.putAll ps).keys ↔ k ∈ ps.map Prod.fst ∨ k ∈ e.keys
  | [], e => by simp
  | p :: ps, e => by
    rw [putAll_cons, mem_keys_putAll, mem_keys_put, List.map_cons, List.mem_cons]
    exact or_left_comm.trans or_assoc.symm

theorem mem_keys_ofList {k : α} {ps : List (α × β)} :
    k ∈ (ofList ps).keys ↔ k ∈ ps.map Prod.fst := by
  rw [ofList, mem_keys_putAll]
  simp [keys]

theorem toList_putAll_of_nodup : ∀ {ps : List (α × β)} {e : Entries α β},
    (e.keys ++ ps.map Prod.fst).Nodup → (e.putAll ps).toList = e.toList ++ ps
  | [], e, _ => (List.append_nil _).symm
  | (k, v) :: rest, e, h => by
    have hk : k ∉ e.keys := fun hmem =>
      (List.nodup_append.1 h).2.2 k hmem k List.mem_cons_self rfl
    rw [List.map_cons, List.append_cons] at h
    rw [putAll_cons, toList_putAll_of_nodup (by rwa [keys_put_of_notMem hk]),
      toList_put_of_notMem hk, List.append_assoc]
    rfl

theorem ofList_toList (e : Entries α β) : ofList e.toList = e :=
  ext_toList (toList_putAll_of_nodup e.nodup_keys)

/-! ## Entries written over entries -/

theorem putPair_putPair (k : α) (v w : β) : ∀ (xs : List (α × β)),
    putPair k w (putPair k v xs) = putPair k w xs
  | [] => if_pos rfl
  | (k', v') :: rest => by
    by_cases hk : k' = k
    · simp only [putPair, if_pos hk, if_true]
    · simp only [putPair, if_neg hk, putPair_putPair k v w rest]

theorem putPair_comm_of_mem {j k : α} (hne : j ≠ k) (v w : β) : ∀ {xs : List (α × β)},
    k ∈ xs.map Prod.fst → putPair k v (putPair j w xs) = putPair j w (putPair k v xs)
  | (k', v') :: rest, h => by
    by_cases hk : k' = k
    · subst hk
      simp only [putPair, if_neg (Ne.symm hne), if_true]
    · have hr : k ∈ rest.map Prod.fst := (List.mem_cons.1 h).resolve_left (Ne.symm hk)
      by_cases hj : k' = j
      · subst hj
        simp only [putPair, if_neg hne, if_true]
      · simp only [putPair, if_neg hk, if_neg hj, putPair_comm_of_mem hne v w hr]

theorem put_put (e : Entries α β) (k : α) (v w : β) : (e.put k v).put k w = e.put k w :=
  ext_toList (putPair_putPair k v w e.toList)

/-- A key that is there keeps its place, whatever other keys are written in between. -/
theorem putAll_put_of_mem {k : α} {v : β} : ∀ {ps : List (α × β)} {e : Entries α β},
    k ∈ e.keys → k ∉ ps.map Prod.fst → (e.putAll ps).put k v = (e.put k v).putAll ps
  | [], _, _, _ => rfl
  | (j, w) :: rest, e, hk, hps => by
    obtain ⟨hne, hrest⟩ := not_or.1 (mt List.mem_cons.2 hps)
    have hcomm : (e.put j w).put k v = (e.put k v).put j w :=
      ext_toList (putPair_comm_of_mem (Ne.symm hne) v w hk)
    rw [putAll_cons, putAll_cons, putAll_put_of_mem (mem_keys_put.2 (.inr hk)) hrest, hcomm]

theorem putAll_putPair {k : α} {v : β} : ∀ {xs : List (α × β)} (e : Entries α β),
    (xs.map Prod.fst).Nodup → e.putAll (putPair k v xs) = (e.putAll xs).put k v
  | [], _, _ => rfl
  | (k', v') :: rest, e, hn => by
    obtain ⟨hnotin, hn⟩ := List.nodup_cons.1 hn
    by_cases hk : k' = k
    · subst hk
      rw [putAll_cons, putAll_put_of_mem (mem_keys_put.2 (.inl rfl)) hnotin, put_put]
      simp only [putPair, if_true, putAll_cons]
    · simp only [putPair, if_neg hk, putAll_cons, putAll_putPair _ hn]

/-- Writing is associative: pairs may be written over the later entries first. -/
theorem putAll_putAll (e : Entries α β) : ∀ (ps : List (α × β)) (f : Entries α β),
    e.putAll (f.putAll ps).toList = (e.putAll f.toList).putAll ps
  | [], _ => rfl
  | (k, v) :: rest, f => by
    rw [putAll_cons, putAll_cons, putAll_putAll e rest, ← putAll_putPair e f.nodup_keys]
    rfl

/-! ## Look-up -/

def get? (e : Entries α β) (k : α) : Option β := e.toList.lookup k

def contains (e : Entries α β) (k : α) : Bool := (e.get? k).isSome

theorem lookup_cons_ite (j k : α) (v : β) (xs : List (α × β)) :
    ((k, v) :: xs).lookup j = if j = k then some v else xs.lookup j := by
  by_cases h : j = k
  · simp [h]
  · rw [List.lookup_cons, if_neg h]; simp [beq_eq_false_iff_ne.2 h]

theorem lookup_map {γ : Type w} (f : γ → α) (g : γ → β) (k : α) (xs : List γ) :
    (xs.map fun x => (f x, g x)).lookup k = (xs.find? fun x => f x = k).map g := by
  induction xs with
  | nil => rfl
  | cons x rest ih =>
    rw [List.map_cons, lookup_cons_ite, ih, List.find?_cons]
    by_cases h : f x = k
    · rw [if_pos h.symm, decide_eq_true h]
      rfl
    · rw [if_neg (Ne.symm h), decide_eq_false h]

theorem lookup_putPair (k j : α) (v : β) : ∀ (xs : List (α × β)),
    (putPair k v xs).lookup j = if j = k then some v else xs.lookup j
  | [] => lookup_cons_ite ..
  | (k', v') :: rest => by
    have ih := lookup_putPair k j v rest
    by_cases hk : k' = k
    · subst hk
      by_cases h : j = k' <;> simp [putPair, lookup_cons_ite, h]
    · by_cases h : j = k'
      · subst h; simp [putPair, hk]
      · simp [putPair, hk, lookup_cons_ite, h, ih]

theorem get?_put (e : Entries α β) (k j : α) (v : β) :
    (e.put k v).get? j = if j = k then some v else e.get? j := lookup_putPair k j v e.toList

@[simp] theorem get?_put_self (e : Entries α β) (k : α) (v : β) : (e.put k v).get? k = some v := by
  simp [get?_put]

theorem get?_put_of_ne (e : Entries α β) {k j : α} (v : β) (h : j ≠ k) :
    (e.put k v).get? j = e.get? j := by
  simp [get?_put, h]

@[simp] theorem get?_empty (k : α) : (∅ : Entries α β).get? k = none := rfl

theorem mem_toList_iff {e : Entries α β} {k : α} {v : β} : (k, v) ∈ e.toList ↔ e.get? k = some v := by
  obtain ⟨xs, hx⟩ := e
  induction xs with
  | nil => simp [get?]
  | cons p rest ih =>
    obtain ⟨k', v'⟩ := p
    obtain ⟨hnotin, hr⟩ := List.nodup_cons.1 hx
    have ih := ih hr
    rw [get?, lookup_cons_ite, List.mem_cons, Prod.mk.injEq]
    split
    · rename_i he
      subst he
      rw [Option.some.injEq]
      constructor
      · rintro (⟨-, rfl⟩ | hmem)
        · rfl
        · exact absurd (List.mem_map_of_mem hmem) hnotin
      · rintro rfl
        exact .inl ⟨rfl, rfl⟩
    · rename_i hne
      exact (or_iff_right fun h => hne h.1).trans ih

theorem contains_iff {e : Entries α β} {k : α} : e.contains k = true ↔ k ∈ e.keys := by
  rw [contains, Option.isSome_iff_exists, keys, List.mem_map]
  constructor
  · rintro ⟨v, hv⟩
    exact ⟨(k, v), mem_toList_iff.2 hv, rfl⟩
  · rintro ⟨⟨_, v⟩, hmem, rfl⟩
    exact ⟨v, mem_toList_iff.1 hmem⟩

theorem lookup_of_mem {xs : List (α × β)} (hn : (xs.map Prod.fst).Nodup) {k : α} {v : β}
    (h : (k, v) ∈ xs) : xs.lookup k = some v :=
  mem_toList_iff.1 (show (k, v) ∈ (Entries.mk xs hn).toList from h)

/-- The order of pairs with different keys makes no difference to looking them up. -/
theorem lookup_perm {xs ys : List (α × β)} (hp : xs.Perm ys) (hn : (xs.map Prod.fst).Nodup) (k : α) :
    xs.lookup k = ys.lookup k := by
  ext v
  have hx := mem_toList_iff (e := ⟨xs, hn⟩) (k := k) (v := v)
  have hy := mem_toList_iff (e := ⟨ys, (hp.map _).nodup_iff.1 hn⟩) (k := k) (v := v)
  exact hx.symm.trans (hp.mem_iff.trans hy)

theorem values_nodup {e : Entries α β}
    (h : ∀ j k v, e.get? j = some v → e.get? k = some v → j = k) : e.values.Nodup := by
  refine List.pairwise_map.2 ((List.pairwise_map.1 e.nodup_keys).imp_of_mem ?_)
  intro p q hp hq hne hv
  refine hne (h p.1 q.1 p.2 (mem_toList_iff.1 hp) (mem_toList_iff.1 ?_))
  rwa [hv]

/-- The last value that is written under a key counts. -/
theorem get?_putAll (e : Entries α β) (k : α) : ∀ (ps : List (α × β)),
    (e.putAll ps).get? k = (ps.reverse.lookup k).or (e.get? k) := by
  intro ps
  induction ps generalizing e with
  | nil => rfl
  | cons p rest ih =>
    rw [putAll_cons, ih, get?_put, List.reverse_cons, List.lookup_append, Option.or_assoc]
    congr 1
    rw [lookup_cons_ite]
    split <;> rfl

theorem get?_ofList (ps : List (α × β)) (k : α) : (ofList ps).get? k = ps.reverse.lookup k := by
  rw [ofList, get?_putAll, get?_empty, Option.or_none]

theorem get?_ofList_eq_find? (ps : List (α × β)) (k : α) :
    (ofList ps).get? k = (ps.reverse.find? fun p => p.1 = k).map Prod.snd := by
  rw [get?_ofList, ← lookup_map Prod.fst Prod.snd, List.map_id']

theorem mem_of_get?_putAll {e : Entries α β} {ps : List (α × β)} {k : α} {v : β}
    (h : (e.putAll ps).get? k = some v) : (k, v) ∈ ps ∨ e.get? k = some v := by
  rw [get?_putAll, Option.or_eq_some_iff] at h
  refine h.imp (fun hl => ?_) And.right
  obtain ⟨before, after, he, -⟩ := List.lookup_eq_some_iff.1 hl
  rw [← List.mem_reverse, he]
  exact List.mem_append_right _ List.mem_cons_self

theorem mem_of_get?_ofList {ps : List (α × β)} {k : α} {v : β} (h : (ofList ps).get? k = some v) :
    (k, v) ∈ ps := (mem_of_get?_putAll h).resolve_right nofun

end Entries

end ShapeSdl
