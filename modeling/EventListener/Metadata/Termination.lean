import EventListener.Metadata.Walk
import Mathlib.Data.Finset.Card

/-!
# Termination of `get_type_hash`

The recursion of `get_type_hash` is well founded on the number of registry ids not yet in the
visited set (`unvisited`): a call that recurses first inserts a fresh id the registry resolves,
and the visited set only grows across sibling calls (`visit_walked`). So a fuel of `unvisited R V`
nesting levels is never exhausted (`visit_ne_outOfFuel`), on any registry, cyclic or not: the
call returns a hash or panics at the `unwrap` of an id the registry does not resolve
(`getTypeHash_terminates`).

The fuel is an artefact of the model: `FuelLe m₁ m₂` says `m₂` returns what `m₁` returns
unless `m₁` runs out, and it is kept by every combinator of the engine, so more fuel keeps any
result that did not run out, and every fuel that covers the measure gives one and the same
result (`getTypeHash_fuel_irrelevant`).
-/

namespace EventListener

/-- The registry ids not in the visited set. -/
def unvisited (R : PortableRegistry) (V : Visited) : Nat :=
  ((Finset.range R.types.length).filter (· ∉ V)).card

section Measure

variable {R : PortableRegistry} {V W : Visited} {id : TypeId}

theorem unvisited_le_length : unvisited R V ≤ R.types.length := by
  simpa [unvisited] using Finset.card_filter_le (Finset.range R.types.length) (· ∉ V)

theorem unvisited_anti (h : V ⊆ W) : unvisited R W ≤ unvisited R V :=
  Finset.card_le_card (Finset.monotone_filter_right _ fun _ hx hV => hx (h hV))

/-- Inserting a fresh registry id lowers the measure. -/
theorem unvisited_cons_lt (hid : id ∉ V) (hlt : id < R.types.length) :
    unvisited R (id :: V) < unvisited R V := by
  refine Finset.card_lt_card ⟨Finset.monotone_filter_right _ fun _ hx hV => hx
    (List.mem_cons_of_mem id hV), fun hsub => ?_⟩
  have : id ∈ (Finset.range R.types.length).filter (· ∉ id :: V) :=
    hsub (Finset.mem_filter.mpr ⟨Finset.mem_range.mpr hlt, hid⟩)
  simp at this

end Measure

/-- **The walk never runs out of a fuel that covers the unvisited ids.** -/
theorem visit_ne_outOfFuel {R : PortableRegistry} :
    ∀ fuel id V, unvisited R V ≤ fuel → visit R fuel id V ≠ .error .outOfFuel :=
  visit_ne_of (fun fuel _ V => unvisited R V ≤ fuel) (fun _ _ _ _ _ _ => by decide)
    (fun _ _ _ h hid hty => absurd (unvisited_cons_lt hid (PortableRegistry.lt_of_resolve hty))
      (by omega))
    (fun _ _ _ _ _ _ h hid hty _ hX => by
      have := unvisited_cons_lt hid (PortableRegistry.lt_of_resolve hty)
      have := unvisited_anti (R := R) hX
      omega)

/-- **`get_type_hash` terminates on every registry**, cyclic ones included: from any visited
set, with fuel for the unvisited ids, it returns a hash or panics at the `unwrap` of an id the
registry does not resolve; it never exhausts the bound. -/
theorem getTypeHash_terminates (hash : List UInt8 → Hash) (R : PortableRegistry) (id : TypeId)
    (V : Visited) (fuel : Nat) (hfuel : unvisited R V ≤ fuel) :
    (∃ bytes W, (getTypeHash hash R fuel id).run V = .ok (bytes, W)) ∨
      (getTypeHash hash R fuel id).run V = .error .panic := by
  have hv : Prod.snd <$> (getTypeHash hash R fuel id).run V = visit R fuel id V :=
    getTypeHash_visited fuel id V
  have hne := visit_ne_outOfFuel fuel id V hfuel
  rcases hr : (getTypeHash hash R fuel id).run V with e | ⟨bytes, W⟩
  · rw [hr] at hv
    cases e with
    | panic => exact .inr rfl
    | outOfFuel => exact absurd hv.symm hne
  · exact .inl ⟨bytes, W, rfl⟩

/-- A type that contains itself: a composite whose one field has its own id. -/
def selfReferential : PortableRegistry := ⟨[.composite [⟨some "next", 0⟩]]⟩

theorem getTypeHash_terminates_selfReferential : unvisited selfReferential [] ≤ 1 ∧
    ∀ hash : List UInt8 → Hash,
      (∃ bytes W, (getTypeHash hash selfReferential 1 0).run [] = .ok (bytes, W)) ∨
        (getTypeHash hash selfReferential 1 0).run [] = .error .panic :=
  ⟨by decide, fun hash => getTypeHash_terminates hash selfReferential 0 [] 1 (by decide)⟩

/-! ## Fuel only bounds the recursion -/

/-- `m₂` returns what `m₁` returns whenever `m₁` does not run out of fuel. -/
def FuelLe {α : Type} (m₁ m₂ : HashM α) : Prop :=
  ∀ V, m₁.run V ≠ .error .outOfFuel → m₂.run V = m₁.run V

section FuelLe

variable {α β : Type}

theorem FuelLe.pure (a : α) : FuelLe (pure a : HashM α) (pure a) := fun _ _ => rfl

theorem FuelLe.bind {m₁ m₂ : HashM α} {f₁ f₂ : α → HashM β} (hm : FuelLe m₁ m₂)
    (hf : ∀ a, FuelLe (f₁ a) (f₂ a)) : FuelLe (m₁ >>= f₁) (m₂ >>= f₂) := by
  intro V hne
  have hm₁ : m₁.run V ≠ .error .outOfFuel := fun h =>
    hne (by simp only [StateT.run_bind, h, except_error_bind])
  simp only [StateT.run_bind, hm V hm₁] at hne ⊢
  revert hne
  rcases m₁.run V with _ | ⟨a, W⟩
  · exact fun _ => rfl
  · exact hf a W

theorem FuelLe.trans {m₁ m₂ m₃ : HashM α} (h₁₂ : FuelLe m₁ m₂) (h₂₃ : FuelLe m₂ m₃) :
    FuelLe m₁ m₃ := fun V hne => by
  rw [h₂₃ V (by rwa [h₁₂ V hne]), h₁₂ V hne]

/-- `FuelLe` lifts through `get_type_def_hash`. -/
theorem fuelLe_lifts : Lifts fun _ {_} m₁ m₂ => FuelLe m₁ m₂ := ⟨FuelLe.pure, FuelLe.bind⟩

end FuelLe

section Stable

variable {hash : List UInt8 → Hash} {R : PortableRegistry}

theorem typeHashStep_fuelLe {hashDef₁ hashDef₂ : TypeDef → HashM Hash}
    (hdef : ∀ ty, FuelLe (hashDef₁ ty) (hashDef₂ ty)) (id : TypeId) :
    FuelLe (typeHashStep hash R hashDef₁ id) (typeHashStep hash R hashDef₂ id) := by
  intro V hne
  by_cases hid : id ∈ V
  · simp only [typeHashStep, StateT.run, hid, if_true]
  · simp only [typeHashStep, StateT.run, hid, if_false] at hne ⊢
    revert hne
    rcases R.resolve id with _ | ty
    · exact fun _ => rfl
    · exact hdef ty _

/-- One more unit of fuel changes no result that did not run out. -/
theorem getTypeHash_fuelLe_succ :
    ∀ fuel id, FuelLe (getTypeHash hash R fuel id) (getTypeHash hash R (fuel + 1) id)
  | 0, id => typeHashStep_fuelLe (fun _ _ hne => absurd rfl hne) id
  | n + 1, id => typeHashStep_fuelLe (fun ty => fuelLe_lifts.getTypeDefHash (g := fun _ => []) ty
      fun c _ => getTypeHash_fuelLe_succ n c) id

theorem getTypeHash_fuelLe_of_le {fuel fuel' : Nat} (h : fuel ≤ fuel') (id : TypeId) :
    FuelLe (getTypeHash hash R fuel id) (getTypeHash hash R fuel' id) := by
  induction h with
  | refl => exact fun _ _ => rfl
  | step _ ih => exact ih.trans (getTypeHash_fuelLe_succ _ id)

theorem getTypeHash_ne_outOfFuel {fuel : Nat} {V : Visited} (h : unvisited R V ≤ fuel)
    (id : TypeId) : (getTypeHash hash R fuel id).run V ≠ .error .outOfFuel := fun he =>
  visit_ne_outOfFuel fuel id V h (by rw [← getTypeHash_visited, he]; rfl)

end Stable

/-- **The fuel is not observable**: every fuel that covers the unvisited ids gives the same
result, so the model's choice of fuel for `get_storage_entry_hash` does not matter. -/
theorem getTypeHash_fuel_irrelevant (hash : List UInt8 → Hash) (R : PortableRegistry)
    (id : TypeId) (V : Visited) (fuel₁ fuel₂ : Nat) (h₁ : unvisited R V ≤ fuel₁)
    (h₂ : unvisited R V ≤ fuel₂) :
    (getTypeHash hash R fuel₁ id).run V = (getTypeHash hash R fuel₂ id).run V := by
  have hne : (getTypeHash hash R (unvisited R V) id).run V ≠ .error .outOfFuel :=
    getTypeHash_ne_outOfFuel le_rfl id
  rw [getTypeHash_fuelLe_of_le h₁ id V hne, getTypeHash_fuelLe_of_le h₂ id V hne]

end EventListener
