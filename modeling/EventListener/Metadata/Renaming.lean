import EventListener.Metadata.Walk
import Mathlib.Logic.Equiv.Defs
import Mathlib.Data.Finset.Card

/-!
# What type hashes depend on

Rename every type id of a registry by an injective `σ` (field, variant and member order kept):
`get_type_hash` from `σ id` and visited set `σ V` returns the same hash as from `id` and `V`,
and its visited set is `σ` of the original one (`getTypeHash_rename`). This holds on every
registry, cyclic ones included, because the sentinel fires at corresponding points: `σ id` is in
`σ V` exactly when `id` is in `V`. A permutation of the ids keeps the registry's length, so
`get_storage_hash` gives the same result on two metadata that differ by such a renaming
(`getStorageHash_rename`).

The proof is a simulation: `Renames σ m₂ m₁` says `m₂` run from `σ V` is `m₁` run from `V`
with `σ` applied to the final visited set; it is kept by `pure` and `bind`, so by
`get_type_def_hash` (`renames_lifts`).

Nor does a type hash depend on definitions it does not reach: two registries that resolve
every id reachable from `id` alike give `get_type_hash` the same function of fuel and visited
set (`getTypeHash_local`), since `get_type_def_hash` reads its hasher only at the children.
-/

namespace EventListener

/-! ## Renaming type ids -/

section Rename

variable (σ : TypeId → TypeId)

def Field.rename (f : Field) : Field := { f with ty := σ f.ty }

def Variant.rename (v : Variant) : Variant := { v with fields := v.fields.map (Field.rename σ) }

/-- Every type id of a definition renamed by `σ`, orders kept. -/
def TypeDef.rename : TypeDef → TypeDef
  | .composite fields => .composite (fields.map (Field.rename σ))
  | .variant variants => .variant (variants.map (Variant.rename σ))
  | .sequence ty => .sequence (σ ty)
  | .array len ty => .array len (σ ty)
  | .tuple fields => .tuple (fields.map σ)
  | .primitive p => .primitive p
  | .compact ty => .compact (σ ty)
  | .bitSequence store order => .bitSequence (σ store) (σ order)

def StorageEntryType.rename : StorageEntryType → StorageEntryType
  | .plain ty => .plain (σ ty)
  | .map hashers key value => .map hashers (σ key) (σ value)

def StorageEntryMetadata.rename (e : StorageEntryMetadata) : StorageEntryMetadata :=
  { e with ty := e.ty.rename σ }

def PalletStorageMetadata.rename (s : PalletStorageMetadata) : PalletStorageMetadata :=
  ⟨s.entries.map (StorageEntryMetadata.rename σ)⟩

/-- A pallet with the type ids of its storage entries and event renamed. -/
def PalletMetadata.rename (p : PalletMetadata) : PalletMetadata :=
  { p with storage := p.storage.map (PalletStorageMetadata.rename σ), event := p.event.map σ }

/-- `R₂` is `R₁` with every type id renamed by `σ`: the definition at `σ i` is the one at
`i`, renamed. -/
def RenamedBy (R₁ R₂ : PortableRegistry) : Prop :=
  ∀ i, R₂.resolve (σ i) = (R₁.resolve i).map (TypeDef.rename σ)

end Rename

/-! ## The simulation -/

/-- `m₂` from `σ V` computes what `m₁` computes from `V`, with `σ` applied to the visited
set it leaves. -/
def Renames {α : Type} (σ : TypeId → TypeId) (m₂ m₁ : HashM α) : Prop :=
  ∀ V, m₂.run (V.map σ) = (fun p => (p.1, p.2.map σ)) <$> m₁.run V

section Simulation

variable {σ : TypeId → TypeId} {α β : Type}

theorem Renames.pure (a : α) : Renames σ (pure a) (pure a) := fun _ => rfl

theorem Renames.bind {m₂ m₁ : HashM α} {f₂ f₁ : α → HashM β} (hm : Renames σ m₂ m₁)
    (hf : ∀ a, Renames σ (f₂ a) (f₁ a)) : Renames σ (m₂ >>= f₂) (m₁ >>= f₁) := by
  intro V
  simp only [StateT.run_bind, hm V]
  rcases m₁.run V with _ | ⟨a, W⟩
  · rfl
  · exact hf a W

/-- `Renames σ` lifts through `get_type_def_hash`. -/
theorem renames_lifts : Lifts fun _ {_} m₂ m₁ => Renames σ m₂ m₁ := ⟨Renames.pure, Renames.bind⟩

end Simulation

section Engine

variable {hash : List UInt8 → Hash} {σ : TypeId → TypeId}

/-- Hashing a renamed definition is hashing the definition with the renaming applied at each
call. -/
theorem getTypeDefHash_rename {m : Type → Type} [Monad m] (rec : TypeId → m Hash) :
    ∀ ty : TypeDef, getTypeDefHash hash rec (ty.rename σ) = getTypeDefHash hash (rec ∘ σ) ty
  | .composite _ | .variant _ | .tuple _ => by
    simp only [TypeDef.rename, getTypeDefHash, getVariantHash, Variant.rename, hashHashesAll,
      List.foldlM_map]
    rfl
  | .sequence _ | .array _ _ | .primitive _ | .compact _ | .bitSequence _ _ => rfl

theorem typeHashStep_rename {R₁ R₂ : PortableRegistry} (hashDef₂ hashDef₁ : TypeDef → HashM Hash)
    (hσ : σ.Injective) (hR : RenamedBy σ R₁ R₂)
    (hdef : ∀ ty, Renames σ (hashDef₂ (ty.rename σ)) (hashDef₁ ty)) (id : TypeId) :
    Renames σ (typeHashStep hash R₂ hashDef₂ (σ id)) (typeHashStep hash R₁ hashDef₁ id) := by
  intro V
  by_cases hid : id ∈ V
  · simp [typeHashStep, StateT.run, hid, List.mem_map_of_injective hσ]
  · simp only [typeHashStep, StateT.run, List.mem_map_of_injective hσ, hid, if_false, hR id]
    rcases R₁.resolve id with _ | ty
    · rfl
    · exact hdef ty (id :: V)

/-- **Renaming invariance of `get_type_hash`**, for every fuel, id and visited set. -/
theorem getTypeHash_rename {R₁ R₂ : PortableRegistry} (hσ : σ.Injective)
    (hR : RenamedBy σ R₁ R₂) :
    ∀ fuel id V, (getTypeHash hash R₂ fuel (σ id)).run (V.map σ) =
      (fun p => (p.1, p.2.map σ)) <$> (getTypeHash hash R₁ fuel id).run V
  | 0, id, V => typeHashStep_rename (fun _ _ => .error .outOfFuel) (fun _ _ => .error .outOfFuel)
      hσ hR (fun _ _ => rfl) id V
  | n + 1, id, V => typeHashStep_rename _ _ hσ hR (fun ty => by
      rw [getTypeDefHash_rename]
      exact renames_lifts.getTypeDefHash (g := fun _ => []) ty fun c _ W =>
        getTypeHash_rename hσ hR n c W) id V

end Engine

/-! ## Storage hashes -/

theorem PortableRegistry.isSome_resolve_iff {R : PortableRegistry} {i : TypeId} :
    (R.resolve i).isSome ↔ i < R.types.length := by
  rw [PortableRegistry.resolve, List.get?_eq_getElem?, Option.isSome_iff_exists]
  exact ⟨fun ⟨_, h⟩ => (List.getElem?_eq_some_iff.mp h).1, fun h => ⟨_, List.getElem?_eq_getElem h⟩⟩

/-- A permutation of the ids that renames `R₁` into `R₂` keeps the number of types. -/
theorem RenamedBy.length_eq {σ : TypeId ≃ TypeId} {R₁ R₂ : PortableRegistry}
    (hR : RenamedBy σ R₁ R₂) : R₂.types.length = R₁.types.length := by
  have hto : ∀ i, i < R₁.types.length ↔ σ i < R₂.types.length := fun i => by
    rw [← PortableRegistry.isSome_resolve_iff, ← PortableRegistry.isSome_resolve_iff, hR i,
      Option.isSome_map']
  apply le_antisymm
  · simpa using Finset.card_le_card_of_injOn σ.symm
      (s := Finset.range R₂.types.length) (t := Finset.range R₁.types.length)
      (fun j hj => by simpa [hto] using hj) σ.symm.injective.injOn
  · simpa using Finset.card_le_card_of_injOn σ
      (s := Finset.range R₁.types.length) (t := Finset.range R₂.types.length)
      (fun i hi => by simpa [← hto] using hi) σ.injective.injOn

section Storage

variable {hash : List UInt8 → Hash} {σ : TypeId ≃ TypeId} {R₁ R₂ : PortableRegistry}

theorem getStorageEntryHash_rename (hR : RenamedBy σ R₁ R₂) (e : StorageEntryMetadata) :
    Renames σ (getStorageEntryHash hash R₂ (e.rename σ)) (getStorageEntryHash hash R₁ e) := by
  have hT : ∀ c, Renames σ (getTypeHash hash R₂ R₂.types.length (σ c))
      (getTypeHash hash R₁ R₁.types.length c) := fun c V => by
    rw [hR.length_eq]
    exact getTypeHash_rename σ.injective hR _ c V
  obtain ⟨name, modifier, ty, default⟩ := e
  cases ty with
  | plain ty => exact (hT ty).bind fun _ => Renames.pure _
  | map hashers key value =>
    exact (hT key).bind fun _ => (hT value).bind fun _ => Renames.pure _

/-- **Renaming invariance of `get_storage_hash`**: two metadata whose registries and storage
entries differ by a permutation of the type ids give the same storage hashes. -/
theorem getStorageHash_rename (m₁ m₂ : RuntimeMetadataV14) (hR : RenamedBy σ m₁.types m₂.types)
    (hp : m₂.pallets = m₁.pallets.map (PalletMetadata.rename σ)) (palletName storageName : String) :
    getStorageHash hash m₂ palletName storageName = getStorageHash hash m₁ palletName storageName := by
  have hpred : ∀ n, ((fun p : PalletMetadata => p.name == n) ∘ PalletMetadata.rename σ) =
      fun p => p.name == n := fun _ => rfl
  have hentry : ∀ n, ((fun e : StorageEntryMetadata => e.name == n) ∘
      StorageEntryMetadata.rename σ) = fun e => e.name == n := fun _ => rfl
  unfold getStorageHash
  rw [hp, List.find?_map, hpred]
  rcases hf : m₁.pallets.find? (fun p => p.name == palletName) with
    _ | ⟨_, _ | ⟨⟨entries⟩⟩, _, _⟩ <;> simp only [hf]
  · rfl
  · rfl
  · simp only [Option.map_some', PalletMetadata.rename, PalletStorageMetadata.rename,
      List.find?_map, hentry]
    rcases he : entries.find? (fun e => e.name == storageName) with _ | e <;> simp only [he]
    · rfl
    · have h : getStorageEntryHash hash m₂.types (e.rename σ) [] =
          (fun p => (p.1, p.2.map σ)) <$> getStorageEntryHash hash m₁.types e [] :=
        getStorageEntryHash_rename hR e []
      simp only [Option.map_some', StateT.run', h]
      rcases getStorageEntryHash hash m₁.types e [] with _ | _ <;> rfl

end Storage

/-- **Type hashes do not depend on how type ids are assigned.** For a permutation `σ` of the
type ids that renames `R₁` into `R₂`, every hash function, fuel, id and visited set,
`get_type_hash` from `σ id` and `σ V` over `R₂` returns the hash it returns from `id` and `V`
over `R₁` and leaves `σ` of its visited set, cyclic registries included; and `get_storage_hash`
agrees on two metadata over these registries whose pallets differ by the renaming. -/
theorem typeHash_renaming (hash : List UInt8 → Hash) (σ : TypeId ≃ TypeId)
    (R₁ R₂ : PortableRegistry) (hR : RenamedBy σ R₁ R₂) :
    (∀ fuel id V, (getTypeHash hash R₂ fuel (σ id)).run (V.map σ) =
      (fun p => (p.1, p.2.map σ)) <$> (getTypeHash hash R₁ fuel id).run V) ∧
    ∀ m₁ m₂ : RuntimeMetadataV14, m₁.types = R₁ → m₂.types = R₂ →
      m₂.pallets = m₁.pallets.map (PalletMetadata.rename σ) →
      ∀ palletName storageName, getStorageHash hash m₂ palletName storageName =
        getStorageHash hash m₁ palletName storageName :=
  ⟨getTypeHash_rename σ.injective hR, fun m₁ m₂ h₁ h₂ hp =>
    getStorageHash_rename m₁ m₂ (h₁ ▸ h₂ ▸ hR) hp⟩

/-- `u8` at 0 and `Vec<u8>` at 1. -/
def u8ThenVec : PortableRegistry := ⟨[.primitive .u8, .sequence 0]⟩

/-- The same two types with their ids swapped. -/
def vecThenU8 : PortableRegistry := ⟨[.sequence 1, .primitive .u8]⟩

theorem typeHash_renaming_swap : RenamedBy (Equiv.swap 0 1) u8ThenVec vecThenU8 ∧
    ∀ hash : List UInt8 → Hash,
      (getTypeHash hash vecThenU8 2 (Equiv.swap 0 1 1)).run ([].map (Equiv.swap 0 1)) =
        (fun p => (p.1, p.2.map (Equiv.swap 0 1))) <$> (getTypeHash hash u8ThenVec 2 1).run [] := by
  have hR : RenamedBy (Equiv.swap 0 1) u8ThenVec vecThenU8 := by
    intro i
    rcases i with _ | _ | i
    · rfl
    · rfl
    · have : Equiv.swap 0 1 (i + 2) = i + 2 := Equiv.swap_apply_of_ne_of_ne (by omega) (by omega)
      rw [this]
      rfl
  exact ⟨hR, fun hash => (typeHash_renaming hash _ _ _ hR).1 2 1 []⟩

/-! ## Types a hash does not reach -/

section Locality

/-- Equality lifts through `get_type_def_hash`. -/
theorem eq_lifts : Lifts fun _ {_} (m₁ m₂ : HashM _) => m₁ = m₂ :=
  ⟨fun _ => rfl, fun h₁ h₂ => by rw [h₁, funext h₂]⟩

/-- **A type hash depends only on the definitions it reaches**: two registries that resolve
every id reachable from `id` alike give `get_type_hash` the same result from `id`, for every
fuel and visited set, whatever they hold elsewhere. -/
theorem getTypeHash_local (hash : List UInt8 → Hash) (R₁ R₂ : PortableRegistry)
    (id : TypeId) (hagree : ∀ x, Reach R₁ [] id x → R₂.resolve x = R₁.resolve x) (fuel : Nat) :
    getTypeHash hash R₂ fuel id = getTypeHash hash R₁ fuel id := by
  induction fuel generalizing id with
  | zero =>
    funext V
    simp only [getTypeHash, typeHashStep, hagree id (.refl (List.not_mem_nil id))]
  | succ n ih =>
    funext V
    simp only [getTypeHash, typeHashStep, hagree id (.refl (List.not_mem_nil id))]
    rcases hty : R₁.resolve id with _ | ty
    · rfl
    · simp only
      rw [eq_lifts.getTypeDefHash (g := fun _ => []) ty fun c hc => ih c fun x hx =>
        hagree x (.step (List.not_mem_nil id) hty hc hx)]

end Locality

end EventListener
