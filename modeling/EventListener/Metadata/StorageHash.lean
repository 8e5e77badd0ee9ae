import EventListener.Metadata.Visited
import EventListener.Metadata.Renaming
import EventListener.Metadata.EventTable

/-!
# `Metadata::storage_hash` over a run of calls

`storage_hash` goes through the `HashCache`: a hit returns the stored result, a miss computes
`get_storage_hash`, stores and returns it. The cache invariant `CacheSound` (every stored result
is what `get_storage_hash` computes for its key) holds for the empty cache `try_from` builds and
is kept by every call (`storageHash_step`), so from any state a run of calls reaches, a call
returns what `get_storage_hash` computes (`StorageReachable.sound`, `storageHash_of_sound`).

`try_from` validates only the event types, while storage hashing resolves every type id reachable
from an entry, with an `unwrap`. A call panics exactly when the entry it finds reaches a type id
the registry lacks, and otherwise returns `PalletNotFound`, `StorageNotFound` or a hash as the
two lookups decide (`storageHash_result`); an accepted metadata can make `storage_hash` panic
(`storageHash_panics`). The value type's walk starts from the ids the key type's walk visited;
what it reaches through them the key's walk has already resolved (`Reach.resolves_around`).

On a metadata whose registry is closed and whose entries' type ids resolve, appending type
definitions to the registry, as an upgrade that only adds types does, changes no existing type
hash and no storage hash (`getStorageHash_appendTypes`): a type hash reads only what it reaches
(`getTypeHash_local`), and the larger fuel the longer registry gives is not observable
(`getTypeHash_fuel_irrelevant`).
-/

namespace EventListener

/-- The result `storage_hash` computes on a cache miss. -/
def storageHashMiss (hash : List UInt8 → Hash) (meta : RuntimeMetadataV14) (pallet storage : String) :
    Except Stop (Except MetadataError Hash) :=
  Except.mapError NotFound.toMetadataError <$> getStorageHash hash meta pallet storage

/-- Every result in the cache is what `get_storage_hash` computes for its key. -/
def CacheSound (hash : List UInt8 → Hash) (md : Metadata) : Prop :=
  ∀ pallet storage r, md.cachedStorageHashes.get? pallet storage = some r →
    storageHashMiss hash md.metadata pallet storage = .ok r

/-- The states a run of `storage_hash` calls leads to from `md`. -/
inductive StorageReachable (hash : List UInt8 → Hash) (md : Metadata) : Metadata → Prop
  | refl : StorageReachable hash md md
  | step {md' md'' : Metadata} {pallet storage : String} {r : Except MetadataError Hash} :
      StorageReachable hash md md' → md'.storageHash hash pallet storage = .ok (r, md'') →
      StorageReachable hash md md''

section Cache

variable {hash : List UInt8 → Hash}

theorem cacheSound_empty (meta : RuntimeMetadataV14)
    (events : UInt8 × UInt8 → Option EventMetadata) :
    CacheSound hash ⟨meta, events, HashCache.empty⟩ :=
  fun _ _ _ h => by simp [HashCache.get?, HashCache.empty] at h

theorem get?_cons {c : HashCache} {pallet storage pallet' storage' : String}
    {r : Except MetadataError Hash} :
    HashCache.get? ⟨((pallet, storage), r) :: c.entries⟩ pallet' storage' =
      if (pallet', storage') = (pallet, storage) then some r else c.get? pallet' storage' := by
  by_cases h : (pallet', storage') = (pallet, storage)
  · simp [HashCache.get?, h]
  · have : ((pallet, storage) == (pallet', storage')) = false := by simpa using Ne.symm h
    simp [HashCache.get?, List.find?_cons, h, this]

/-- What one call can do: return the stored result and leave the state as it is, or, on a
miss, return what `get_storage_hash` computes and store it. -/
theorem storageHash_eq_ok {md md' : Metadata} {pallet storage : String}
    {r : Except MetadataError Hash} :
    md.storageHash hash pallet storage = .ok (r, md') ↔
      md.cachedStorageHashes.get? pallet storage = some r ∧ md' = md ∨
      md.cachedStorageHashes.get? pallet storage = none ∧
        storageHashMiss hash md.metadata pallet storage = .ok r ∧
        md' = { md with cachedStorageHashes :=
          ⟨((pallet, storage), r) :: md.cachedStorageHashes.entries⟩ } := by
  unfold Metadata.storageHash HashCache.getOrInsert
  rcases hc : md.cachedStorageHashes.get? pallet storage with _ | r₀
  · show (storageHashMiss hash md.metadata pallet storage >>= _) >>= _ = _ ↔ _
    rcases storageHashMiss hash md.metadata pallet storage with _ | r₁
    · simp
    · simp only [pure, Except.pure, except_ok_bind, Except.ok.injEq, Prod.mk.injEq, reduceCtorEq,
        false_and, true_and, false_or]
      constructor <;> rintro ⟨rfl, rfl⟩ <;> exact ⟨rfl, rfl⟩
  · simp only [pure, Except.pure, except_ok_bind, Except.ok.injEq, Prod.mk.injEq,
      Option.some.injEq, reduceCtorEq, false_and, or_false]
    exact and_congr_right fun _ => eq_comm

/-- **One call keeps the cache sound**, leaves the V14 metadata as it is, and returns what
`get_storage_hash` computes. -/
theorem storageHash_step {md md' : Metadata} {pallet storage : String}
    {r : Except MetadataError Hash} (hs : CacheSound hash md)
    (h : md.storageHash hash pallet storage = .ok (r, md')) :
    storageHashMiss hash md.metadata pallet storage = .ok r ∧ md'.metadata = md.metadata ∧
      CacheSound hash md' := by
  rcases storageHash_eq_ok.mp h with ⟨hc, rfl⟩ | ⟨-, hm, rfl⟩
  · exact ⟨hs _ _ _ hc, rfl, hs⟩
  · refine ⟨hm, rfl, fun p' s' r' h' => ?_⟩
    rw [get?_cons] at h'
    split_ifs at h' with hk
    · cases h'
      obtain ⟨rfl, rfl⟩ := Prod.mk.inj hk
      exact hm
    · exact hs p' s' r' h'

/-- From a sound cache, a call whose miss computation returns gives that result. -/
theorem storageHash_of_sound {md : Metadata} {pallet storage : String}
    {r : Except MetadataError Hash} (hs : CacheSound hash md)
    (hm : storageHashMiss hash md.metadata pallet storage = .ok r) :
    ∃ md', md.storageHash hash pallet storage = .ok (r, md') := by
  rcases hc : md.cachedStorageHashes.get? pallet storage with _ | r₀
  · exact ⟨_, storageHash_eq_ok.mpr (.inr ⟨hc, hm, rfl⟩)⟩
  · cases (hs _ _ _ hc).symm.trans hm
    exact ⟨md, storageHash_eq_ok.mpr (.inl ⟨hc, rfl⟩)⟩

/-- On a sound cache one call returns what the uncached computation returns, panic included. -/
theorem storageHash_fst {md : Metadata} (hs : CacheSound hash md) (pallet storage : String) :
    Prod.fst <$> md.storageHash hash pallet storage =
      storageHashMiss hash md.metadata pallet storage := by
  unfold Metadata.storageHash HashCache.getOrInsert
  rcases hc : md.cachedStorageHashes.get? pallet storage with _ | r₀
  · show Prod.fst <$> ((storageHashMiss hash md.metadata pallet storage >>= _) >>= _) = _
    rcases storageHashMiss hash md.metadata pallet storage with _ | _ <;> rfl
  · exact (hs _ _ _ hc).symm

/-- **A run of calls keeps the cache sound** and the V14 metadata fixed. -/
theorem StorageReachable.sound {md md' : Metadata} (hr : StorageReachable hash md md')
    (hs : CacheSound hash md) : CacheSound hash md' ∧ md'.metadata = md.metadata := by
  induction hr with
  | refl => exact ⟨hs, rfl⟩
  | step _ hstep ih =>
    obtain ⟨-, hmeta, hs'⟩ := storageHash_step ih.1 hstep
    exact ⟨hs', hmeta.trans ih.2⟩

end Cache

/-! ## When `storage_hash` panics -/

/-- The type ids a storage entry names. -/
def StorageEntryType.ids : StorageEntryType → List TypeId
  | .plain ty => [ty]
  | .map _ key value => [key, value]

/-- The registry is closed and every storage entry's type ids resolve. -/
def RuntimeMetadataV14.StorageTypesResolve (meta : RuntimeMetadataV14) : Prop :=
  meta.types.Closed ∧ ∀ p ∈ meta.pallets, ∀ st, p.storage = some st →
    ∀ e ∈ st.entries, ∀ i ∈ e.ty.ids, i < meta.types.types.length

/-- Every type id reachable from the type ids a storage entry names resolves. -/
def StorageEntryMetadata.Resolves (R : PortableRegistry) (e : StorageEntryMetadata) : Prop :=
  ∀ i ∈ e.ty.ids, ∀ x, Reach R [] i x → (R.resolve x).isSome

/-- On well-formed metadata every storage entry's reachable type ids resolve. -/
theorem RuntimeMetadataV14.StorageTypesResolve.resolves {meta : RuntimeMetadataV14}
    (hwf : meta.StorageTypesResolve) {p : PalletMetadata} {st : PalletStorageMetadata}
    {e : StorageEntryMetadata} (hp : p ∈ meta.pallets) (hst : p.storage = some st)
    (he : e ∈ st.entries) : e.Resolves meta.types :=
  fun i hi _ hx => hwf.1.reach_resolves (hwf.2 p hp st hst e he i hi) hx

section Panics

variable {R : PortableRegistry}

theorem run_bind_of_ok {α β : Type} {m : HashM α} {f : α → HashM β} {V W : Visited} {a : α}
    (h : m.run V = .ok (a, W)) : (m >>= f).run V = (f a).run W := by
  rw [StateT.run_bind, h]
  rfl

/-- With the registry's length as fuel, `get_type_hash` returns exactly when every id it
reaches resolves, and panics otherwise. -/
theorem getTypeHash_length_cases (hash : List UInt8 → Hash) (id : TypeId) (V : Visited) :
    (∃ b W, (getTypeHash hash R R.types.length id).run V = .ok (b, W) ∧
      ∀ x, Reach R V id x → (R.resolve x).isSome) ∨
    (getTypeHash hash R R.types.length id).run V = .error .panic ∧
      ¬ ∀ x, Reach R V id x → (R.resolve x).isSome := by
  rcases h : (getTypeHash hash R R.types.length id).run V with e | ⟨b, W⟩
  · cases e with
    | panic => exact .inr ⟨rfl, fun hres =>
        visit_ne_panic _ id V hres (by rw [← getTypeHash_visited, h]; rfl)⟩
    | outOfFuel => exact absurd h (getTypeHash_ne_outOfFuel unvisited_le_length id)
  · exact .inl ⟨b, W, rfl, fun _ hx => (getTypeHash_walked h).reach_resolves hx⟩

/-- **`get_storage_entry_hash` from an empty visited set panics exactly when a type id
reachable from the entry's types does not resolve**, and returns otherwise. The value's walk
starts from the ids the key's walk visited, and what it reaches through them the key's walk has
already resolved. -/
theorem getStorageEntryHash_cases (hash : List UInt8 → Hash) (e : StorageEntryMetadata) :
    (∃ b, (getStorageEntryHash hash R e).run' [] = .ok b) ∧ e.Resolves R ∨
      (getStorageEntryHash hash R e).run' [] = .error .panic ∧ ¬ e.Resolves R := by
  obtain ⟨name, modifier, ty, default⟩ := e
  rw [getStorageEntryHash_eq_fold]
  cases ty with
  | plain ty =>
    simp only [StorageEntryMetadata.Resolves, StorageEntryType.ids, List.mem_singleton,
      forall_eq, StateT.run'_eq, StateT.run_map]
    rcases getTypeHash_length_cases hash ty [] with ⟨b, W, h, hres⟩ | ⟨h, hres⟩
    · exact .inl ⟨⟨_, by rw [h]; rfl⟩, hres⟩
    · exact .inr ⟨by rw [h]; rfl, hres⟩
  | map hashers key value =>
    simp only [StorageEntryMetadata.Resolves, StorageEntryType.ids, List.mem_cons,
      List.mem_singleton, List.not_mem_nil, or_false, forall_eq_or_imp, forall_eq,
      StateT.run'_eq]
    rcases getTypeHash_length_cases hash key [] with ⟨k, W, hk, hresk⟩ | ⟨hk, hresk⟩
    · have hw := getTypeHash_walked hk
      rcases getTypeHash_length_cases hash value W with ⟨v, W', hv, hresv⟩ | ⟨hv, hresv⟩
      · refine .inl ⟨⟨_, by rw [run_bind_of_ok hk, run_bind_of_ok hv]; rfl⟩, hresk,
          fun x hx => hx.resolves_around hw.closed ?_ hresv⟩
        exact fun z hz => hw.resolves z hz (List.not_mem_nil z)
      · refine .inr ⟨by rw [run_bind_of_ok hk, StateT.run_bind, hv]; rfl, fun hres => hresv
          fun x hx => hres.2 x (hx.mono (List.nil_subset W))⟩
    · exact .inr ⟨by rw [StateT.run_bind, hk]; rfl, fun hres => hresk hres.1⟩

/-- What `get_storage_hash` does: it panics exactly when the entry it finds reaches a type id
that does not resolve; otherwise its result is decided by the two lookups. -/
theorem getStorageHash_cases (hash : List UInt8 → Hash) (meta : RuntimeMetadataV14)
    (pallet storage : String) :
    getStorageHash hash meta pallet storage = .error .panic ∧
      (∃ p st e, meta.pallets.find? (·.name == pallet) = some p ∧ p.storage = some st ∧
        st.entries.find? (·.name == storage) = some e ∧ ¬ e.Resolves meta.types) ∨
    ∃ r, getStorageHash hash meta pallet storage = .ok r ∧
      (∀ p, meta.pallets.find? (·.name == pallet) = some p → ∀ st, p.storage = some st →
        ∀ e, st.entries.find? (·.name == storage) = some e → e.Resolves meta.types) ∧
      (r = .error .pallet ↔ meta.pallets.find? (·.name == pallet) = none) ∧
      (r = .error .item ↔ ∃ p, meta.pallets.find? (·.name == pallet) = some p ∧
        ∀ st, p.storage = some st → st.entries.find? (·.name == storage) = none) ∧
      ((∃ h, r = .ok h) ↔ ∃ p st e, meta.pallets.find? (·.name == pallet) = some p ∧
        p.storage = some st ∧ st.entries.find? (·.name == storage) = some e) := by
  rcases hp : meta.pallets.find? (·.name == pallet) with _ | p
  · have hg : getStorageHash hash meta pallet storage = .ok (.error .pallet) := by
      simp only [getStorageHash, hp]
      rfl
    exact .inr ⟨_, hg, by rw [hp]; simp⟩
  rcases hst : p.storage with _ | st
  · have hg : getStorageHash hash meta pallet storage = .ok (.error .item) := by
      simp only [getStorageHash, hp, hst]
      rfl
    exact .inr ⟨_, hg, by rw [hp]; simp [hst]⟩
  rcases he : st.entries.find? (·.name == storage) with _ | e
  · have hg : getStorageHash hash meta pallet storage = .ok (.error .item) := by
      simp only [getStorageHash, hp, hst, he]
      rfl
    exact .inr ⟨_, hg, by rw [hp]; simpa [hst, he] using List.find?_eq_none.mp he⟩
  have hg : getStorageHash hash meta pallet storage =
      .ok <$> (getStorageEntryHash hash meta.types e).run' [] := by
    simp only [getStorageHash, hp, hst, he]
  have hmem : ∃ x ∈ st.entries, x.name = storage :=
    ⟨e, List.mem_of_find?_eq_some he, by simpa using List.find?_some he⟩
  rcases getStorageEntryHash_cases (R := meta.types) hash e with ⟨⟨b, hb⟩, hres⟩ | ⟨hb, hres⟩
  · exact .inr ⟨_, by rw [hg, hb]; rfl, by rw [hp]; simp [hst, he, hres, hmem]⟩
  · exact .inl ⟨by rw [hg, hb]; rfl, p, st, e, hp, hst, he, hres⟩

/-- `storage_hash` maps `NotFound` one to one onto `MetadataError`. -/
theorem mapError_toMetadataError (r : Except NotFound Hash) :
    (r.mapError NotFound.toMetadataError = .error .palletNotFound ↔ r = .error .pallet) ∧
    (r.mapError NotFound.toMetadataError = .error .storageNotFound ↔ r = .error .item) ∧
    ((∃ h, r.mapError NotFound.toMetadataError = .ok h) ↔ ∃ h, r = .ok h) := by
  rcases r with (_ | _) | _ <;> simp [Except.mapError, NotFound.toMetadataError]

end Panics

/-- **When `storage_hash` panics, and what it returns otherwise, over any run of calls.** For a
metadata `try_from` accepts and any state a run of `storage_hash` calls reaches,
`storage_hash(p, s)` panics (at the `unwrap` in `get_type_hash`) exactly when the first pallet
named `p` has a storage entry named `s` and a type id the registry lacks is reachable from the
first such entry's types. Otherwise it returns: `PalletNotFound` exactly when no pallet is named
`p`, `StorageNotFound` exactly when the first pallet named `p` has no storage or no entry named
`s`, and a hash otherwise. -/
theorem storageHash_result (hash : List UInt8 → Hash) {m : RuntimeMetadataPrefixed}
    {md md' : Metadata} (hm : Metadata.tryFrom m = .ok md) (hr : StorageReachable hash md md')
    (pallet storage : String) :
    (md'.storageHash hash pallet storage = .error .panic ↔
      ∃ p st e, md.metadata.pallets.find? (·.name == pallet) = some p ∧ p.storage = some st ∧
        st.entries.find? (·.name == storage) = some e ∧ ¬ e.Resolves md.metadata.types) ∧
    (md'.storageHash hash pallet storage ≠ .error .panic →
      ∃ r md'', md'.storageHash hash pallet storage = .ok (r, md'') ∧
        (r = .error .palletNotFound ↔ ∀ p ∈ md.metadata.pallets, p.name ≠ pallet) ∧
        (r = .error .storageNotFound ↔ ∃ p, md.metadata.pallets.find? (·.name == pallet) = some p ∧
          ∀ st, p.storage = some st → ∀ e ∈ st.entries, e.name ≠ storage) ∧
        ((∃ h, r = .ok h) ↔ ∃ p st e, md.metadata.pallets.find? (·.name == pallet) = some p ∧
          p.storage = some st ∧ st.entries.find? (·.name == storage) = some e)) := by
  obtain ⟨-, meta, -, -, rfl⟩ := tryFrom_eq_ok.mp hm
  obtain ⟨hs, hmeta⟩ := hr.sound (cacheSound_empty _ _)
  have hfst := storageHash_fst hs pallet storage
  rw [hmeta, storageHashMiss] at hfst
  rcases getStorageHash_cases hash meta pallet storage with ⟨hg, hex⟩ | ⟨r, hg, hres, hpal, hitem, hok⟩
  · have hp : md'.storageHash hash pallet storage = .error .panic :=
      except_map_eq_error.mp (hfst.trans (by rw [hg]; rfl))
    exact ⟨iff_of_true hp hex, fun hne => absurd hp hne⟩
  · obtain ⟨md'', h⟩ := storageHash_of_sound (r := r.mapError NotFound.toMetadataError) hs
      (by rw [storageHashMiss, hmeta, hg]; rfl)
    obtain ⟨hpal', hitem', hok'⟩ := mapError_toMetadataError r
    refine ⟨⟨fun hp => (by rw [h] at hp; cases hp), fun ⟨p, st, e, h₁, h₂, h₃, h₄⟩ =>
      absurd (hres p h₁ st h₂ e h₃) h₄⟩, fun _ => ⟨_, md'', h, ?_, ?_, hok'.trans hok⟩⟩
    · rw [hpal', hpal, List.find?_eq_none]
      simp only [beq_iff_eq, ne_eq]
    · rw [hitem', hitem]
      simp only [List.find?_eq_none, beq_iff_eq, ne_eq]

/-- Pallet `System` (index 0) with one storage entry, `Account`, of plain type `u32`. -/
def systemAccountV14 : RuntimeMetadataV14 :=
  ⟨⟨[.primitive .u32]⟩, [⟨"System", some ⟨[⟨"Account", .optional, .plain 0, [0]⟩]⟩, none, 0⟩]⟩

def systemAccount : RuntimeMetadataPrefixed := ⟨META_RESERVED, .v14 systemAccountV14⟩

theorem systemAccountV14_storageTypesResolve : systemAccountV14.StorageTypesResolve := by
  refine ⟨fun i ty h c hc => ?_, ?_⟩
  · rcases i with _ | i
    · cases h
      simp [TypeDef.children] at hc
    · simp [systemAccountV14, PortableRegistry.resolve] at h
  · simp [systemAccountV14, StorageEntryType.ids]

theorem storageHash_result_systemAccount : ∃ md, Metadata.tryFrom systemAccount = .ok md ∧
    ∀ hash : List UInt8 → Hash,
      (∃ md', md.storageHash hash "NoSuchPallet" "Account" = .ok (.error .palletNotFound, md')) ∧
      ∃ b md', md.storageHash hash "System" "Account" = .ok (.ok b, md') := by
  have hm : Metadata.tryFrom systemAccount = .ok _ := rfl
  refine ⟨_, hm, fun hash => ⟨?_, ?_⟩⟩
  · obtain ⟨hpanic, hret⟩ := storageHash_result hash hm .refl "NoSuchPallet" "Account"
    obtain ⟨r, md', h, hpal, -, -⟩ := hret fun hp => by
      obtain ⟨p, -, -, hp', -⟩ := hpanic.mp hp
      simp [systemAccountV14] at hp'
    exact ⟨md', by rw [h, hpal.mpr (by decide)]⟩
  · obtain ⟨hpanic, hret⟩ := storageHash_result hash hm .refl "System" "Account"
    obtain ⟨r, md', h, -, -, hok⟩ := hret fun hp => by
      obtain ⟨p, st, e, h₁, h₂, h₃, hnres⟩ := hpanic.mp hp
      exact hnres (systemAccountV14_storageTypesResolve.resolves (List.mem_of_find?_eq_some h₁) h₂
        (List.mem_of_find?_eq_some h₃))
    obtain ⟨b, rfl⟩ := hok.mpr ⟨_, _, _, rfl, rfl, rfl⟩
    exact ⟨b, md', h⟩

/-- An accepted metadata whose storage entry names a type id the (empty) registry lacks. -/
def danglingStorageType : RuntimeMetadataPrefixed :=
  ⟨META_RESERVED, .v14 ⟨⟨[]⟩, [⟨"System", some ⟨[⟨"Account", .optional, .plain 0, [0]⟩]⟩, none, 0⟩]⟩⟩

/-- `try_from` accepts it, and `storage_hash("System", "Account")` panics at the `unwrap`,
whatever the hash function. -/
theorem storageHash_panics : ∃ md, Metadata.tryFrom danglingStorageType = .ok md ∧
    ∀ hash : List UInt8 → Hash, md.storageHash hash "System" "Account" = .error .panic :=
  ⟨_, rfl, fun _ => rfl⟩

/-! ## The cache is invisible over whole runs -/

/-- A client's calls of `storage_hash` on one `Metadata`, each on the state the one before left,
with their results in order; a panic stops the run. -/
def storageHashRun (hash : List UInt8 → Hash) :
    Metadata → List (String × String) → Except Stop (List (Except MetadataError Hash) × Metadata)
  | md, [] => pure ([], md)
  | md, (pallet, storage) :: keys => do
    let (r, md') ← md.storageHash hash pallet storage
    let (rs, md'') ← storageHashRun hash md' keys
    pure (r :: rs, md'')

section Run

variable {hash : List UInt8 → Hash}

theorem storageHashRun_fst {md : Metadata} (hs : CacheSound hash md) :
    ∀ keys : List (String × String), Prod.fst <$> storageHashRun hash md keys =
      keys.mapM fun k => storageHashMiss hash md.metadata k.1 k.2
  | [] => rfl
  | (pallet, storage) :: keys => by
    have hfst := storageHash_fst hs pallet storage
    simp only [storageHashRun, List.mapM_cons]
    rcases h : md.storageHash hash pallet storage with e | ⟨r, md'⟩
    · rw [← hfst, h]
      rfl
    · obtain ⟨hm, hmeta, hs'⟩ := storageHash_step hs h
      have ih := storageHashRun_fst hs' keys
      rw [hmeta] at ih
      rw [hm, ← ih, except_ok_bind, except_ok_bind]
      rcases storageHashRun hash md' keys with _ | _ <;> rfl

end Run

/-- **The cache never changes what `storage_hash` returns.** From the metadata `try_from`
builds, and from every state a run of calls reaches, any further sequence of calls returns,
call by call, exactly what `get_storage_hash` computes for each key with its error mapped, and
panics exactly where that computation panics. -/
theorem storageHashRun_uncached (hash : List UInt8 → Hash) {m : RuntimeMetadataPrefixed}
    {md md' : Metadata} (hm : Metadata.tryFrom m = .ok md) (hr : StorageReachable hash md md')
    (keys : List (String × String)) :
    Prod.fst <$> storageHashRun hash md' keys =
      keys.mapM fun k => storageHashMiss hash md.metadata k.1 k.2 := by
  obtain ⟨-, meta, -, -, rfl⟩ := tryFrom_eq_ok.mp hm
  obtain ⟨hs, hmeta⟩ := hr.sound (cacheSound_empty _ _)
  rw [storageHashRun_fst hs, hmeta]

/-- A hit, a miss on an unknown pallet and a repeated hit answer as the uncached computation. -/
theorem storageHashRun_uncached_systemAccount : ∃ md, Metadata.tryFrom systemAccount = .ok md ∧
    ∀ hash : List UInt8 → Hash,
      Prod.fst <$> storageHashRun hash md
          [("System", "Account"), ("NoSuchPallet", "Account"), ("System", "Account")] =
        [("System", "Account"), ("NoSuchPallet", "Account"), ("System", "Account")].mapM
          fun k => storageHashMiss hash md.metadata k.1 k.2 :=
  have hm : Metadata.tryFrom systemAccount = .ok ⟨systemAccountV14, fun _ => none, .empty⟩ := rfl
  ⟨_, hm, fun hash => storageHashRun_uncached hash hm .refl _⟩

/-! ## Appending types -/

section Append

variable (hash : List UInt8 → Hash) {R : PortableRegistry} (extra : List TypeDef)

theorem resolve_append_of_lt {x : TypeId} (h : x < R.types.length) :
    (⟨R.types ++ extra⟩ : PortableRegistry).resolve x = R.resolve x := by
  simp [PortableRegistry.resolve, List.getElem?_append_left h]

/-- More fuel than the registry's length changes no type hash. -/
theorem getTypeHash_length_add (id : TypeId) (k : Nat) :
    getTypeHash hash R (R.types.length + k) id = getTypeHash hash R R.types.length id :=
  funext fun V => getTypeHash_fuel_irrelevant hash R id V _ _
    (unvisited_le_length.trans (Nat.le_add_right _ k)) unvisited_le_length

theorem getTypeHash_append (hR : R.Closed) {id : TypeId} (hid : id < R.types.length)
    (fuel : Nat) : getTypeHash hash ⟨R.types ++ extra⟩ fuel id = getTypeHash hash R fuel id :=
  getTypeHash_local hash R _ id (fun _ hx => resolve_append_of_lt extra
    (PortableRegistry.isSome_resolve_iff.mp (hR.reach_resolves hid hx))) fuel

theorem getStorageEntryHash_append (hR : R.Closed) {e : StorageEntryMetadata}
    (he : ∀ i ∈ e.ty.ids, i < R.types.length) :
    getStorageEntryHash hash ⟨R.types ++ extra⟩ e = getStorageEntryHash hash R e := by
  obtain ⟨name, modifier, ty, default⟩ := e
  cases ty with
  | plain ty =>
    simp only [getStorageEntryHash, List.length_append,
      getTypeHash_append hash extra hR (he ty (List.mem_singleton_self ty)), getTypeHash_length_add]
  | map hashers key value =>
    simp only [getStorageEntryHash, List.length_append,
      getTypeHash_append hash extra hR (he key (by simp [StorageEntryType.ids])),
      getTypeHash_append hash extra hR (he value (by simp [StorageEntryType.ids])),
      getTypeHash_length_add]

end Append

/-- **Appending types changes no existing hash.** On a metadata whose registry is closed and
whose storage entries' type ids resolve, appending type definitions to the registry keeps the
type hash of every existing id, for every fuel and visited set, and every storage hash. -/
theorem getStorageHash_appendTypes (hash : List UInt8 → Hash) (meta : RuntimeMetadataV14)
    (extra : List TypeDef) (hwf : meta.StorageTypesResolve) :
    (∀ id, id < meta.types.types.length → ∀ fuel,
      getTypeHash hash ⟨meta.types.types ++ extra⟩ fuel id = getTypeHash hash meta.types fuel id) ∧
    ∀ palletName storageName,
      getStorageHash hash ⟨⟨meta.types.types ++ extra⟩, meta.pallets⟩ palletName storageName =
        getStorageHash hash meta palletName storageName := by
  refine ⟨fun id hid => getTypeHash_append hash extra hwf.1 hid, fun palletName storageName => ?_⟩
  unfold getStorageHash
  rcases hf : meta.pallets.find? (fun p => p.name == palletName) with
    _ | ⟨_, _ | ⟨⟨entries⟩⟩, _, _⟩ <;> simp only [hf]
  rcases he : entries.find? (fun e => e.name == storageName) with _ | e <;> simp only [he]
  rw [getStorageEntryHash_append hash extra hwf.1 (hwf.2 _ (List.mem_of_find?_eq_some hf) _ rfl
    e (List.mem_of_find?_eq_some he))]

/-- `System::Account` keeps its hash when a `Vec<u32>` type is appended. -/
theorem getStorageHash_appendTypes_systemAccount : systemAccountV14.StorageTypesResolve ∧
    ∀ hash : List UInt8 → Hash,
      getStorageHash hash ⟨⟨[.primitive .u32, .sequence 0]⟩, systemAccountV14.pallets⟩ "System"
        "Account" = getStorageHash hash systemAccountV14 "System" "Account" :=
  ⟨systemAccountV14_storageTypesResolve, fun hash => (getStorageHash_appendTypes hash
    systemAccountV14 [.sequence 0] systemAccountV14_storageTypesResolve).2 "System" "Account"⟩

end EventListener
