import EventListener.Metadata.TypeHash

/-!
# What a returning walk leaves in the visited set

`visit` (the recursion of `get_type_hash` with the hashes left out) threads one visited set
through the whole traversal and never removes an id from it. This file proves what every
walk that returns leaves behind (`visit_walked`): the ids it adds are fresh and distinct, the
start id is among them or was visited before, every added id resolves and has all its children
in the result, and every added id is reachable from the start along ids outside the initial set.

- `Reach R V i x`: `x` is reachable from `i` along references through ids outside `V`.
- `Extends V W`: `W` is `V` with distinct fresh ids consed on.
- `ClosedOver R V W`: every id of `W` outside `V` has its children in `W`.
- `foldlM_outcome`: the one induction over a list of children, used for every walk property.
- `visit_ne_of`: the one induction showing a walk never stops with a given error, from where
  that error can be raised; termination and the absence of panics are its instances.
-/

namespace EventListener

/-! ## Reachability avoiding a visited set -/

/-- `Reach R V i x`: `x` is reachable from `i` along references, every id of the path (both
ends included) outside `V`. -/
inductive Reach (R : PortableRegistry) (V : Visited) : TypeId → TypeId → Prop
  | refl {i : TypeId} : i ∉ V → Reach R V i i
  | step {i j x : TypeId} {ty : TypeDef} :
      i ∉ V → R.resolve i = some ty → j ∈ ty.children → Reach R V j x → Reach R V i x

namespace Reach

variable {R : PortableRegistry} {V W : Visited} {i x : TypeId}

/-- Avoiding a larger set is harder: paths avoiding `W ⊇ V` avoid `V`. -/
theorem mono (hVW : V ⊆ W) (h : Reach R W i x) : Reach R V i x := by
  induction h with
  | refl h => exact .refl fun hi => h (hVW hi)
  | step h hty hj _ ih => exact .step (fun hi => h (hVW hi)) hty hj ih

end Reach

/-! ## Fresh extensions and closure -/

/-- `W` is `V` with distinct ids, none of them in `V`, consed on. -/
def Extends (V W : Visited) : Prop :=
  ∃ new : List TypeId, W = new ++ V ∧ new.Nodup ∧ ∀ x ∈ new, x ∉ V

theorem Extends.refl (V : Visited) : Extends V V := ⟨[], rfl, List.nodup_nil, by simp⟩

theorem Extends.subset {V W : Visited} : Extends V W → V ⊆ W := by
  rintro ⟨new, rfl, -, -⟩
  exact List.subset_append_right new V

theorem Extends.cons {V : Visited} {id : TypeId} (h : id ∉ V) : Extends V (id :: V) :=
  ⟨[id], rfl, List.nodup_singleton id, by simpa using h⟩

theorem Extends.trans {V W X : Visited} : Extends V W → Extends W X → Extends V X := by
  rintro ⟨new₁, rfl, hnd₁, hfr₁⟩ ⟨new₂, rfl, hnd₂, hfr₂⟩
  refine ⟨new₂ ++ new₁, by simp, List.nodup_append.mpr ⟨hnd₂, hnd₁, ?_⟩, ?_⟩
  · exact fun x hx hy => hfr₂ x hx (List.mem_append_left V hy)
  · intro x hx
    rcases List.mem_append.mp hx with hx | hx
    · exact fun hV => hfr₂ x hx (List.mem_append_right new₁ hV)
    · exact hfr₁ x hx

/-- Every id of `W` outside `V` has all its children in `W`. -/
def ClosedOver (R : PortableRegistry) (V W : Visited) : Prop :=
  ∀ y ∈ W, y ∉ V → ∀ ty, R.resolve y = some ty → ∀ c ∈ ty.children, c ∈ W

theorem ClosedOver.refl (R : PortableRegistry) (V : Visited) : ClosedOver R V V :=
  fun _ hy hyV => absurd hy hyV

theorem ClosedOver.trans {R : PortableRegistry} {V W X : Visited} (hWX : W ⊆ X)
    (h₁ : ClosedOver R V W) (h₂ : ClosedOver R W X) : ClosedOver R V X := by
  intro y hy hyV ty hty c hc
  by_cases hyW : y ∈ W
  · exact hWX (h₁ y hyW hyV ty hty c hc)
  · exact h₂ y hy hyW ty hty c hc

/-! ## Folding over the children -/

/-- A walk's result: if it returns, the state satisfies `P`; if it stops, the reason
satisfies `E`. -/
def Outcome (E : Stop → Prop) (P : Visited → Prop) : Except Stop Visited → Prop
  | .ok W => P W
  | .error e => E e

@[simp] theorem outcome_ok {E : Stop → Prop} {P : Visited → Prop} {W : Visited} :
    Outcome E P (.ok W) ↔ P W := Iff.rfl

@[simp] theorem outcome_error {E : Stop → Prop} {P : Visited → Prop} {e : Stop} :
    Outcome E P (.error e) ↔ E e := Iff.rfl

theorem outcome_ne {P : Visited → Prop} {e : Stop} :
    ∀ {r : Except Stop Visited}, Outcome (· ≠ e) P r → r ≠ .error e
  | .ok _, _ => Except.noConfusion
  | .error _, h => fun he => h (Except.error.inj he)

/-- The induction over a list of children: an invariant indexed by the children done so
far, kept by each step, holds after the fold. -/
theorem foldlM_outcome {E : Stop → Prop} (P : List TypeId → Visited → Prop)
    {f : TypeId → Visited → Except Stop Visited} :
    ∀ (cs done : List TypeId) (W : Visited),
      (∀ c ∈ cs, ∀ done W, P done W → Outcome E (P (done ++ [c])) (f c W)) →
      P done W → Outcome E (P (done ++ cs)) (cs.foldlM (fun W c => f c W) W)
  | [], done, W, _, h => by simpa using h
  | c :: cs, done, W, hf, h => by
    have hc := hf c (List.mem_cons_self c cs) done W h
    rw [List.foldlM_cons]
    rcases hfc : f c W with e | W'
    · rw [hfc] at hc
      exact hc
    · rw [hfc] at hc
      simpa using foldlM_outcome P cs (done ++ [c]) W'
        (fun c' hc' => hf c' (List.mem_cons_of_mem c hc')) hc

/-! ## One step of the walk -/

/-- Everything one step of the walk can do: return a visited id's set unchanged, panic on an
id the registry does not resolve, or insert the id and walk its definition. -/
theorem visitStep_cases (R : PortableRegistry) (visitDef : TypeDef → Visited → Except Stop Visited)
    (id : TypeId) (V : Visited) :
    (id ∈ V ∧ visitStep R visitDef id V = .ok V) ∨
    (id ∉ V ∧ R.resolve id = none ∧ visitStep R visitDef id V = .error .panic) ∨
    (id ∉ V ∧ ∃ ty, R.resolve id = some ty ∧
      visitStep R visitDef id V = visitDef ty (id :: V)) := by
  by_cases hid : id ∈ V
  · exact .inl ⟨hid, by simp [visitStep, hid]; rfl⟩
  · rcases hty : R.resolve id with _ | ty
    · exact .inr (.inl ⟨hid, rfl, by simp [visitStep, hid, hty]; rfl⟩)
    · exact .inr (.inr ⟨hid, ty, rfl, by simp [visitStep, hid, hty]⟩)

theorem visit_zero (R : PortableRegistry) (id : TypeId) (V : Visited) :
    visit R 0 id V = visitStep R (fun _ _ => throw .outOfFuel) id V := rfl

theorem visit_succ (R : PortableRegistry) (n : Nat) (id : TypeId) (V : Visited) :
    visit R (n + 1) id V =
      visitStep R (fun ty => ty.children.foldlM fun W c => visit R n c W) id V := rfl

/-! ## What a returning walk leaves behind -/

/-- What a walk from `id` that returns `W` from `V` leaves behind. -/
structure Walked (R : PortableRegistry) (V : Visited) (id : TypeId) (W : Visited) : Prop where
  fresh : Extends V W
  mem : id ∈ W
  closed : ClosedOver R V W
  sound : ∀ x ∈ W, x ∉ V → Reach R V id x
  resolves : ∀ x ∈ W, x ∉ V → (R.resolve x).isSome

/-- The invariant of the fold over the children of a freshly inserted `id`, after the
children `done`. -/
structure Expanding (R : PortableRegistry) (V : Visited) (id : TypeId) (done : List TypeId)
    (X : Visited) : Prop where
  fresh : Extends (id :: V) X
  closed : ClosedOver R (id :: V) X
  done_mem : ∀ c ∈ done, c ∈ X
  sound : ∀ x ∈ X, x ∉ id :: V → Reach R V id x
  resolves : ∀ x ∈ X, x ∉ V → (R.resolve x).isSome

section Step

variable {R : PortableRegistry} {V X X' : Visited} {id c : TypeId} {ty : TypeDef}
  {done : List TypeId}

theorem walked_of_mem (h : id ∈ V) : Walked R V id V :=
  ⟨.refl V, h, .refl R V, fun _ hx hxV => absurd hx hxV, fun _ hx hxV => absurd hx hxV⟩

theorem expanding_start (hty : R.resolve id = some ty) : Expanding R V id [] (id :: V) where
  fresh := .refl _
  closed := .refl R _
  done_mem := by simp
  sound _ hx hxV := absurd hx hxV
  resolves x hx hxV := by
    rcases List.mem_cons.mp hx with rfl | hx
    · simp [hty]
    · exact absurd hx hxV

/-- One child walked: the invariant moves past it. -/
theorem expanding_step (hid : id ∉ V) (hty : R.resolve id = some ty) (hc : c ∈ ty.children)
    (hX : Expanding R V id done X) (hW : Walked R X c X') :
    Expanding R V id (done ++ [c]) X' where
  fresh := hX.fresh.trans hW.fresh
  closed := hX.closed.trans hW.fresh.subset hW.closed
  done_mem c' hc' := by
    rcases List.mem_append.mp hc' with hc' | hc'
    · exact hW.fresh.subset (hX.done_mem c' hc')
    · exact (List.mem_singleton.mp hc') ▸ hW.mem
  sound x hx hxV := by
    by_cases hxX : x ∈ X
    · exact hX.sound x hxX hxV
    · have hVX : V ⊆ X := fun v hv => hX.fresh.subset (List.mem_cons_of_mem id hv)
      exact .step hid hty hc ((hW.sound x hx hxX).mono hVX)
  resolves x hx hxV := by
    by_cases hxX : x ∈ X
    · exact hX.resolves x hxX hxV
    · exact hW.resolves x hx hxX

/-- All children walked: the walk from `id` is done. -/
theorem walked_of_expanding (hid : id ∉ V) (hty : R.resolve id = some ty)
    (h : Expanding R V id ty.children X) : Walked R V id X where
  fresh := (Extends.cons hid).trans h.fresh
  mem := h.fresh.subset (List.mem_cons_self id V)
  closed y hy hyV ty' hty' c hc := by
    by_cases hyid : y = id
    · subst hyid
      rw [hty] at hty'
      cases hty'
      exact h.done_mem c hc
    · exact h.closed y hy (by simp [hyid, hyV]) ty' hty' c hc
  sound x hx hxV := by
    by_cases hxid : x = id
    · subst hxid
      exact .refl hid
    · exact h.sound x hx (by simp [hxid, hxV])
  resolves := h.resolves

end Step

/-- **Every walk that returns leaves a `Walked` state.** -/
theorem visit_walked {R : PortableRegistry} :
    ∀ fuel id V W, visit R fuel id V = .ok W → Walked R V id W
  | 0, id, V, W, h => by
    rw [visit_zero] at h
    rcases visitStep_cases R (fun _ _ => throw .outOfFuel) id V
      with ⟨hid, hv⟩ | ⟨-, -, hv⟩ | ⟨-, ty, -, hv⟩ <;> rw [hv] at h <;> cases h
    exact walked_of_mem hid
  | n + 1, id, V, W, h => by
    rw [visit_succ] at h
    rcases visitStep_cases R (fun ty => ty.children.foldlM fun W c => visit R n c W) id V
      with ⟨hid, hv⟩ | ⟨-, -, hv⟩ | ⟨hid, ty, hty, hv⟩ <;> rw [hv] at h
    · cases h
      exact walked_of_mem hid
    · cases h
    · have hfold := foldlM_outcome (E := fun _ => True) (Expanding R V id)
        (f := fun c W => visit R n c W) ty.children [] (id :: V)
        (fun c hc done X hX => ?_) (expanding_start hty)
      · rw [h] at hfold
        exact walked_of_expanding hid hty hfold
      · show Outcome _ _ (visit R n c X)
        rcases hc' : visit R n c X with e | X'
        · trivial
        · exact expanding_step hid hty hc hX (visit_walked n c X X' hc')

/-- **The walk never stops with `e`** when a property `P` of the calls rules `e` out where
`visit` can raise it (a panic at an unresolvable id, running out at fuel `0`) and passes from
a call to the calls on its children, whose visited sets contain the parent's. -/
theorem visit_ne_of {R : PortableRegistry} {e : Stop} (P : Nat → TypeId → Visited → Prop)
    (hpanic : ∀ fuel id V, P fuel id V → id ∉ V → R.resolve id = none → e ≠ .panic)
    (hzero : ∀ id V ty, P 0 id V → id ∉ V → R.resolve id = some ty → e ≠ .outOfFuel)
    (hchild : ∀ n id V ty c X, P (n + 1) id V → id ∉ V → R.resolve id = some ty →
      c ∈ ty.children → id :: V ⊆ X → P n c X) :
    ∀ fuel id V, P fuel id V → visit R fuel id V ≠ .error e
  | 0, id, V, hP => by
    rw [visit_zero]
    rcases visitStep_cases R (fun _ _ => throw .outOfFuel) id V
      with ⟨-, hv⟩ | ⟨hid, hnone, hv⟩ | ⟨hid, ty, hty, hv⟩ <;> rw [hv]
    · exact Except.noConfusion
    · exact fun h => hpanic 0 id V hP hid hnone (Except.error.inj h).symm
    · exact fun h => hzero id V ty hP hid hty (Except.error.inj h).symm
  | n + 1, id, V, hP => by
    rw [visit_succ]
    rcases visitStep_cases R (fun ty => ty.children.foldlM fun W c => visit R n c W) id V
      with ⟨-, hv⟩ | ⟨hid, hnone, hv⟩ | ⟨hid, ty, hty, hv⟩ <;> rw [hv]
    · exact Except.noConfusion
    · exact fun h => hpanic _ id V hP hid hnone (Except.error.inj h).symm
    · refine outcome_ne (foldlM_outcome (E := (· ≠ e)) (fun _ X => id :: V ⊆ X)
        (f := fun c W => visit R n c W) ty.children [] (id :: V)
        (fun c hc done X hX => ?_) (List.Subset.refl _))
      show Outcome _ _ (visit R n c X)
      have hne := visit_ne_of P hpanic hzero hchild n c X (hchild n id V ty c X hP hid hty hc hX)
      rcases hc' : visit R n c X with e' | X'
      · exact fun he => hne (hc' ▸ he ▸ rfl)
      · exact List.Subset.trans hX (visit_walked n c X X' hc').fresh.subset

/-- A returning call of `get_type_hash` leaves a `Walked` visited set. -/
theorem getTypeHash_walked {hash : List UInt8 → Hash} {R : PortableRegistry} {fuel : Nat}
    {id : TypeId} {V W : Visited} {bytes : Hash}
    (h : (getTypeHash hash R fuel id).run V = .ok (bytes, W)) : Walked R V id W :=
  visit_walked fuel id V W (by rw [← getTypeHash_visited, h]; rfl)

end EventListener
