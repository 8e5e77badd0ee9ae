import EventListener.Metadata.TypeHash

/-!
# `Metadata`: the validated, indexed snapshot (metadata_type.rs)

`Metadata::try_from` checks the magic prefix and the version, then walks every pallet that
declares an event type: the type must resolve to a variant type, and each variant becomes an
`EventMetadata` inserted into a map keyed by `(pallet index, variant index)`, a later insert
replacing an earlier one. `Metadata::event` looks a key up; `Metadata::storage_hash` hashes a
storage entry through the `HashCache`.

The map is a function `(UInt8 × UInt8) → Option EventMetadata` with `insertEvent` as
`HashMap::insert`. `metadata/hash_cache.rs` is not in the repository: `HashCache` and
`HashCache.getOrInsert` are modelled from the spec. Storage hashing can panic, so
`Metadata.storageHash` returns in `Except Stop`; the cache it returns is the one the call
leaves behind.
-/

namespace EventListener

/-- `MetadataError` (metadata_type.rs:24). -/
inductive MetadataError where
  | palletNotFound
  | callNotFound
  | eventNotFound (palletIndex eventIndex : UInt8)
  | storageNotFound
  | constantNotFound
  deriving DecidableEq, Repr

/-- `InvalidMetadataError` (metadata_type.rs:136). -/
inductive InvalidMetadataError where
  | invalidPrefix
  | invalidVersion
  | missingType (id : TypeId)
  | typeDefNotVariant (id : TypeId)
  deriving DecidableEq, Repr

/-- `EventMetadata` (metadata_type.rs:102). -/
structure EventMetadata where
  pallet : String
  event : String
  fields : List (Option String × TypeId)
  docs : List String
  deriving DecidableEq, Repr

/-- Modelled from the spec: `HashCache` (`metadata/hash_cache.rs` is not in the repository):
a store from (pallet name, item name) to the first result computed for it, success or error,
newest entry first. -/
structure HashCache where
  entries : List ((String × String) × Except MetadataError Hash)

/-- Modelled from the spec: the empty cache a new `Metadata` starts with. -/
def HashCache.empty : HashCache := ⟨[]⟩

/-- Modelled from the spec: the stored result for a key. -/
def HashCache.get? (c : HashCache) (pallet item : String) : Option (Except MetadataError Hash) :=
  (c.entries.find? fun e => e.1 == (pallet, item)).map (·.2)

/-- Modelled from the spec: `HashCache::get_or_insert`: on a hit the stored result, without
running `f`; on a miss, run `f` and store and return its result. A panic in `f` propagates. -/
def HashCache.getOrInsert (c : HashCache) (pallet item : String)
    (f : Unit → Except Stop (Except MetadataError Hash)) :
    Except Stop (Except MetadataError Hash × HashCache) :=
  match c.get? pallet item with
  | some r => pure (r, c)
  | none => do
    let r ← f ()
    pure (r, ⟨((pallet, item), r) :: c.entries⟩)

/-- `Metadata` (metadata_type.rs:44–54): the V14 metadata, the event map and the cache. -/
structure Metadata where
  metadata : RuntimeMetadataV14
  events : UInt8 × UInt8 → Option EventMetadata
  cachedStorageHashes : HashCache

/-- `Metadata::event` (metadata_type.rs:58). -/
def Metadata.event (md : Metadata) (palletIndex eventIndex : UInt8) :
    Except MetadataError EventMetadata :=
  match md.events (palletIndex, eventIndex) with
  | some e => .ok e
  | none => .error (.eventNotFound palletIndex eventIndex)

/-- The `NotFound` to `MetadataError` mapping of `Metadata::storage_hash`. -/
def NotFound.toMetadataError : NotFound → MetadataError
  | .pallet => .palletNotFound
  | .item => .storageNotFound

/-- `Metadata::storage_hash` (metadata_type.rs:77): `get_storage_hash` through the cache. -/
def Metadata.storageHash (hash : List UInt8 → Hash) (md : Metadata) (pallet storage : String) :
    Except Stop (Except MetadataError Hash × Metadata) := do
  let (r, cache) ← md.cachedStorageHashes.getOrInsert pallet storage fun _ =>
    (Except.mapError NotFound.toMetadataError) <$> getStorageHash hash md.metadata pallet storage
  pure (r, { md with cachedStorageHashes := cache })

/-! ## `Metadata::try_from` -/

/-- `HashMap::insert` on the event map: the new value replaces any old one. -/
def insertEvent (events : UInt8 × UInt8 → Option EventMetadata) (key : UInt8 × UInt8)
    (e : EventMetadata) : UInt8 × UInt8 → Option EventMetadata :=
  fun k => if k = key then some e else events k

/-- The closure `get_type_def_variant` of `try_from` (metadata_type.rs:163): the variants of
the type, which must resolve to a variant type. -/
def getTypeDefVariant (types : PortableRegistry) (typeId : TypeId) :
    Except InvalidMetadataError (List Variant) :=
  match types.resolve typeId with
  | none => .error (.missingType typeId)
  | some (.variant variants) => .ok variants
  | some _ => .error (.typeDefNotVariant typeId)

/-- The `EventMetadata` built for one variant of a pallet's event enum. -/
def eventMetadataOf (pallet : PalletMetadata) (v : Variant) : EventMetadata :=
  ⟨pallet.name, v.name, v.fields.map fun f => (f.name, f.ty), v.docs⟩

/-- The inner loop of `try_from`: insert every variant of one pallet's event enum. -/
def insertPalletEvents (events : UInt8 × UInt8 → Option EventMetadata) (pallet : PalletMetadata)
    (variants : List Variant) : UInt8 × UInt8 → Option EventMetadata :=
  variants.foldl (fun events v => insertEvent events (pallet.index, v.index) (eventMetadataOf pallet v))
    events

/-- The body of the outer loop of `try_from`, for one pallet. -/
def palletStep (meta : RuntimeMetadataV14) (events : UInt8 × UInt8 → Option EventMetadata)
    (pallet : PalletMetadata) : Except InvalidMetadataError (UInt8 × UInt8 → Option EventMetadata) :=
  match pallet.event with
  | none => pure events
  | some ty => insertPalletEvents events pallet <$> getTypeDefVariant meta.types ty

/-- The outer loop of `try_from` over the pallets; the first failing event type stops it. -/
def buildEvents (meta : RuntimeMetadataV14) :
    Except InvalidMetadataError (UInt8 × UInt8 → Option EventMetadata) :=
  meta.pallets.foldlM (palletStep meta) fun _ => none

/-- `Metadata::try_from` (metadata_type.rs:154). -/
def Metadata.tryFrom (metadata : RuntimeMetadataPrefixed) : Except InvalidMetadataError Metadata :=
  if metadata.magic ≠ META_RESERVED then .error .invalidPrefix
  else match metadata.metadata with
    | .v14 meta => (fun events => ⟨meta, events, HashCache.empty⟩) <$> buildEvents meta
    | .other _ => .error .invalidVersion

end EventListener
