import ShapeSdl.Proofs.Strict

/-!
# How far walks may go

Taking wrappers off and looking for the node that a field refers to are walks that follow one link
at a time. Each refuses a node that it meets twice, and each counts its steps.

* `Steps next n r e` : `n` steps along `next` lead from `r` to `e`;
* `Graph.endsAt_iff` : the walk of a field counted;
* `Graph.referenced_eq_ok_iff` : strict mode finds what is at the end of a walk of at most
  `maxDepth` steps. A walk that ends meets no node twice, so only the count refuses it;
* `Graph.unwrap_error` : where no wrapper is met twice, it is the wrapper after `maxDepth` others
  that is refused.
-/

namespace ShapeSdl

/-! ## Counted walks -/

/-- `n` steps along `next` lead from `r` to `e`. -/
inductive Steps (next : Ref → Option Ref) : Nat → Ref → Ref → Prop
  | here {r} : Steps next 0 r r
  | step {n r m e} (goes : next r = some m) (onward : Steps next n m e) : Steps next (n + 1) r e

namespace Steps

variable {next : Ref → Option Ref} {n k : Nat} {r m e e' : Ref}

theorem single (h : next r = some m) : Steps next 1 r m := .step h .here

theorem trans (h : Steps next n r m) (h' : Steps next k m e) : Steps next (k + n) r e := by
  induction h with
  | here => exact h'
  | step goes _ ih => exact .step goes (ih h')

theorem tail (h : Steps next n r m) (goes : next m = some e) : Steps next (n + 1) r e := by
  rw [Nat.add_comm]
  exact h.trans (.single goes)

theorem unique (h : Steps next n r e) (he : next e = none) (h' : Steps next k r e')
    (he' : next e' = none) : n = k ∧ e = e' := by
  induction h generalizing k with
  | here =>
    cases h' with
    | here => exact ⟨rfl, rfl⟩
    | step goes => cases he.symm.trans goes
  | step goes _ ih =>
    cases h' with
    | here => cases he'.symm.trans goes
    | step goes' onward =>
      cases goes.symm.trans goes'
      obtain ⟨rfl, rfl⟩ := ih he onward
      exact ⟨rfl, rfl⟩

theorem not_beyond (h : Steps next n r e) (he : next e = none) (hlt : n < k) :
    ¬ Steps next k r e' := by
  intro h'
  induction h generalizing k with
  | here =>
    cases h' with
    | here => cases hlt
    | step goes => cases he.symm.trans goes
  | step goes _ ih =>
    cases h' with
    | here => cases hlt
    | step goes' onward =>
      cases goes.symm.trans goes'
      exact ih he (Nat.lt_of_succ_lt_succ hlt) onward

theorem not_circle (h : Steps next n r e) (he : next e = none) : ¬ Steps next (k + 1) r r := by
  intro hc
  have := ((hc.trans h).unique he h he).1
  omega

theorem ends_or_goes (next : Ref → Option Ref) : ∀ (n : Nat) (r : Ref),
    (∃ k ≤ n, ∃ e, Steps next k r e ∧ next e = none) ∨ ∃ e, Steps next (n + 1) r e := by
  intro n r
  cases hr : next r with
  | none => exact .inl ⟨0, Nat.zero_le n, r, .here, hr⟩
  | some m =>
    cases n with
    | zero => exact .inr ⟨m, .single hr⟩
    | succ n =>
      rcases ends_or_goes next n m with ⟨k, hk, e, he, hend⟩ | ⟨e, he⟩
      · exact .inl ⟨k + 1, Nat.succ_le_succ hk, e, .step hr he, hend⟩
      · exact .inr ⟨e, .step hr he⟩

end Steps

namespace Graph

variable {g : Graph} {named : Ref → Bool} {r e : Ref}

theorem endsAt_iff : g.EndsAt named r e ↔
    ∃ n, Steps (g.next? named) n r e ∧ g.next? named e = none := by
  constructor
  · intro h
    induction h with
    | here stays => exact ⟨0, .here, stays⟩
    | step goes _ ih =>
      obtain ⟨n, hn, he⟩ := ih
      exact ⟨n + 1, .step goes hn, he⟩
  · rintro ⟨n, hn, he⟩
    induction hn with
    | here => exact .here he
    | step goes _ ih => exact .step goes (ih he)

/-! ## Looking for the node that a field refers to -/

variable {type field : String}

theorem steps_of_referencedWithin : ∀ {room : Nat} {seen : List Ref} {r : Ref},
    g.referencedWithin type field room seen r = .ok e →
      ∃ n ≤ room, Steps (g.next? noneNamed) n r e ∧ g.next? noneNamed e = none := by
  intro room seen r h
  rw [referencedWithin_eq] at h
  split at h
  · cases h
    exact ⟨0, Nat.zero_le _, .here, ‹_›⟩
  · split at h
    · cases h
    · cases room with
      | zero => cases h
      | succ room =>
        obtain ⟨n, hn, hs, he⟩ := steps_of_referencedWithin h
        exact ⟨n + 1, Nat.succ_le_succ hn, .step ‹_› hs, he⟩

/-- The nodes seen so far lead to the present one, and so are not met again if the walk ends. -/
theorem referencedWithin_of_steps {n : Nat} (h : Steps (g.next? noneNamed) n r e)
    (he : g.next? noneNamed e = none) : ∀ {room : Nat} {seen : List Ref}, n ≤ room →
      (∀ x ∈ seen, ∃ k, Steps (g.next? noneNamed) (k + 1) x r) →
        g.referencedWithin type field room seen r = .ok e := by
  induction h with
  | here =>
    intro room seen _ _
    rw [referencedWithin_eq, he]
  | @step n r m e goes onward ih =>
    intro room seen hroom hseen
    have hr : r ∉ seen := by
      intro hmem
      obtain ⟨k, hk⟩ := hseen r hmem
      exact (Steps.step goes onward).not_circle he hk
    rw [referencedWithin_eq, goes]
    dsimp only
    rw [if_neg hr]
    cases room with
    | zero => cases hroom
    | succ room =>
      refine ih he (Nat.le_of_succ_le_succ hroom) ?_
      refine List.forall_mem_cons.2 ⟨⟨0, .single goes⟩, fun x hx => ?_⟩
      obtain ⟨k, hk⟩ := hseen x hx
      exact ⟨k + 1, hk.tail goes⟩

/-- Strict mode finds a node exactly if a walk of at most `maxDepth` steps ends there. -/
theorem referenced_eq_ok_iff : g.referenced type field r = .ok e ↔
    ∃ n ≤ maxDepth, Steps (g.next? noneNamed) n r e ∧ g.next? noneNamed e = none := by
  refine ⟨steps_of_referencedWithin, ?_⟩
  rintro ⟨n, hn, hs, he⟩
  exact referencedWithin_of_steps hs he hn (by simp)

theorem eq_of_referencedWithin_error {f : Fault} : ∀ {room : Nat} {seen : List Ref} {r : Ref},
    g.referencedWithin type field room seen r = .error f →
      f = .structural (.fieldTooDeep field type) := by
  intro room seen r h
  rw [referencedWithin_eq] at h
  split at h
  · cases h
  · split at h
    · cases h; rfl
    · cases room with
      | zero => cases h; rfl
      | succ room => exact eq_of_referencedWithin_error h

/-- A field that strict mode finds no node for leads through more than `maxDepth` wrappers and
lists. -/
theorem referenced_error {f : Fault} (h : g.referenced type field r = .error f) :
    f = .structural (.fieldTooDeep field type) ∧
      ∃ e, Steps (g.next? noneNamed) (maxDepth + 1) r e := by
  refine ⟨eq_of_referencedWithin_error h, ?_⟩
  rcases Steps.ends_or_goes (g.next? noneNamed) maxDepth r with ⟨n, hn, e, hs, he⟩ | hgoes
  · rw [referenced_eq_ok_iff.2 ⟨n, hn, hs, he⟩] at h
    cases h
  · exact hgoes

theorem referenced_of_beyond (h : Steps (g.next? noneNamed) (maxDepth + 1) r e) :
    g.referenced type field r = .error (.structural (.fieldTooDeep field type)) := by
  cases hr : g.referenced type field r with
  | error f => rw [(referenced_error hr).1]
  | ok e' =>
    obtain ⟨n, hn, hs, he⟩ := referenced_eq_ok_iff.1 hr
    exact absurd h (hs.not_beyond he (Nat.lt_succ_of_le hn))

/-! ## Taking wrappers off -/

def inner? (g : Graph) (r : Ref) : Option Ref :=
  match g.shape? r with
  | some (.wrapper _ inner _) => some inner
  | _ => none

theorem inner?_of_node? {path : String} {metadata : List (String × Json)} {kind : WrapperKind}
    {inner : Ref} {value : Json} (h : g.node? r = some ⟨path, metadata, .wrapper kind inner value⟩) :
    g.inner? r = some inner := by
  rw [inner?, shape?_of_node? h]

theorem next?_of_inner? {m : Ref} (h : g.inner? r = some m) : g.next? named r = some m := by
  unfold inner? at h
  split at h
  · rename_i hs
    rw [next?, hs]
    exact h
  · cases h

/-- Where no node leads back to itself, the check for nodes met twice has nothing to refuse. -/
theorem unwrapWithin_error {f : Fault} : ∀ {room : Nat} {seen : List Ref} {nullable : Bool} {r : Ref},
    (∀ x ∈ seen, ∃ k, Steps g.inner? (k + 1) x r) →
    (∀ n x k, Steps g.inner? n r x → ¬ Steps g.inner? (k + 1) x x) →
    g.unwrapWithin room seen nullable r = .error f →
      (∃ path, f = .structural (.wrapperWithoutInner path)) ∨
        ∃ e path metadata kind inner value, f = .structural (.wrapperCycle path) ∧
          Steps g.inner? room r e ∧ g.node? e = some ⟨path, metadata, .wrapper kind inner value⟩ := by
  intro room seen nullable r hseen hno h
  unfold unwrapWithin at h
  split at h
  · rename_i path metadata kind inner value hn
    have hgoes := inner?_of_node? hn
    split at h
    · obtain ⟨k, hk⟩ := hseen r ‹_›
      exact absurd hk (hno 0 r k .here)
    · cases room with
      | zero =>
        cases h
        exact .inr ⟨r, path, metadata, kind, inner, value, rfl, .here, hn⟩
      | succ room =>
        dsimp only at h
        split at h
        · cases h
          exact .inl ⟨path, rfl⟩
        · have hseen' : ∀ x ∈ r :: seen, ∃ k, Steps g.inner? (k + 1) x inner := by
            refine List.forall_mem_cons.2 ⟨⟨0, .single hgoes⟩, fun x hx => ?_⟩
            obtain ⟨k, hk⟩ := hseen x hx
            exact ⟨k + 1, hk.tail hgoes⟩
          rcases unwrapWithin_error hseen' (fun n x k hx => hno (n + 1) x k (.step hgoes hx)) h with
            hnone | ⟨e, path, metadata, kind, inner, value, rfl, hs, he⟩
          · exact .inl hnone
          · exact .inr ⟨e, path, metadata, kind, inner, value, rfl, .step hgoes hs, he⟩
  · cases h

/-- Where no wrapper leads back to itself, the wrapper that is refused is the one after `maxDepth`
others. -/
theorem unwrap_error {f : Fault}
    (hno : ∀ n x k, Steps g.inner? n r x → ¬ Steps g.inner? (k + 1) x x)
    (h : g.unwrap r = .error f) :
    (∃ path, f = .structural (.wrapperWithoutInner path)) ∨
      ∃ e path metadata kind inner value, f = .structural (.wrapperCycle path) ∧
        Steps g.inner? maxDepth r e ∧ g.node? e = some ⟨path, metadata, .wrapper kind inner value⟩ :=
  unwrapWithin_error (by simp) hno h

end Graph

end ShapeSdl
