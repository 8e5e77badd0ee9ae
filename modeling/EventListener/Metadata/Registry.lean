import EventListener.Metadata.Hash

/-!
# The metadata data model (scale-info and frame-metadata V14)

The parts of `scale_info` and `frame_metadata` that the modelled functions read. A type id
is a `u32` that is only compared and used as a registry position, so it is a `Nat` here.

- `TypeDef`: the eight type-def kinds; `TypeDef.children` lists the type ids a definition
  refers to, in the order `get_type_def_hash` hashes them.
- `PortableRegistry.resolve`: positional lookup, as `types.get(id as usize)`.
- `StorageEntryMetadata`, `PalletMetadata`, `RuntimeMetadataV14`, `RuntimeMetadataPrefixed`:
  what `get_storage_hash` and `Metadata::try_from` read.
-/

namespace EventListener

/-- A type id of the portable registry. -/
abbrev TypeId := Nat

/-- `scale_info::Field`: its optional name and its type. -/
structure Field where
  name : Option String
  ty : TypeId
  deriving DecidableEq, Repr

/-- `scale_info::Variant`: name, fields, index and docs. -/
structure Variant where
  name : String
  fields : List Field
  index : UInt8
  docs : List String
  deriving DecidableEq, Repr

/-- `scale_info::TypeDefPrimitive`. -/
inductive TypeDefPrimitive where
  | bool | char | str | u8 | u16 | u32 | u64 | u128 | u256
  | i8 | i16 | i32 | i64 | i128 | i256
  deriving DecidableEq, Repr

/-- `TypeDefPrimitive as u8`: the declaration order. -/
def TypeDefPrimitive.toU8 : TypeDefPrimitive → UInt8
  | .bool => 0 | .char => 1 | .str => 2 | .u8 => 3 | .u16 => 4 | .u32 => 5 | .u64 => 6
  | .u128 => 7 | .u256 => 8 | .i8 => 9 | .i16 => 10 | .i32 => 11 | .i64 => 12
  | .i128 => 13 | .i256 => 14

/-- `scale_info::TypeDef`, over portable type ids. -/
inductive TypeDef where
  | composite (fields : List Field)
  | variant (variants : List Variant)
  | sequence (typeParam : TypeId)
  | array (len : UInt32) (typeParam : TypeId)
  | tuple (fields : List TypeId)
  | primitive (primitive : TypeDefPrimitive)
  | compact (typeParam : TypeId)
  | bitSequence (bitStoreType bitOrderType : TypeId)
  deriving DecidableEq, Repr

/-- The type ids of a variant's fields. -/
def Variant.children (v : Variant) : List TypeId := v.fields.map Field.ty

/-- The type ids a definition refers to, in the order `get_type_def_hash` visits them
(bit order before bit store). -/
def TypeDef.children : TypeDef → List TypeId
  | .composite fields => fields.map Field.ty
  | .variant variants => variants.flatMap Variant.children
  | .sequence ty => [ty]
  | .array _ ty => [ty]
  | .tuple fields => fields
  | .primitive _ => []
  | .compact ty => [ty]
  | .bitSequence store order => [order, store]

/-- `scale_info::PortableRegistry`: the type definitions, by position. -/
structure PortableRegistry where
  types : List TypeDef
  deriving DecidableEq, Repr

/-- `PortableRegistry::resolve`: `self.types.get(id as usize)`. -/
def PortableRegistry.resolve (R : PortableRegistry) (id : TypeId) : Option TypeDef :=
  R.types.get? id

theorem PortableRegistry.lt_of_resolve {R : PortableRegistry} {id : TypeId} {td : TypeDef}
    (h : R.resolve id = some td) : id < R.types.length :=
  (List.get?_eq_some.mp h).1

/-! ## frame-metadata V14 -/

/-- `StorageEntryModifier`. -/
inductive StorageEntryModifier where
  | optional | default
  deriving DecidableEq, Repr

def StorageEntryModifier.toU8 : StorageEntryModifier → UInt8
  | .optional => 0 | .default => 1

/-- `StorageHasher`. -/
inductive StorageHasher where
  | blake2_128 | blake2_256 | blake2_128Concat | twox128 | twox256 | twox64Concat | identity
  deriving DecidableEq, Repr

def StorageHasher.toU8 : StorageHasher → UInt8
  | .blake2_128 => 0 | .blake2_256 => 1 | .blake2_128Concat => 2 | .twox128 => 3
  | .twox256 => 4 | .twox64Concat => 5 | .identity => 6

/-- `StorageEntryType`. -/
inductive StorageEntryType where
  | plain (ty : TypeId)
  | map (hashers : List StorageHasher) (key value : TypeId)
  deriving DecidableEq, Repr

/-- `StorageEntryMetadata` (its docs are not read). -/
structure StorageEntryMetadata where
  name : String
  modifier : StorageEntryModifier
  ty : StorageEntryType
  default : List UInt8
  deriving DecidableEq, Repr

/-- `PalletStorageMetadata` (its prefix is not read). -/
structure PalletStorageMetadata where
  entries : List StorageEntryMetadata
  deriving DecidableEq, Repr

/-- `PalletMetadata`: name, storage, the event enum's type id, and index (calls, constants
and errors are not read). -/
structure PalletMetadata where
  name : String
  storage : Option PalletStorageMetadata
  event : Option TypeId
  index : UInt8
  deriving DecidableEq, Repr

/-- `RuntimeMetadataV14` (the extrinsic metadata and runtime type are not read). -/
structure RuntimeMetadataV14 where
  types : PortableRegistry
  pallets : List PalletMetadata
  deriving DecidableEq, Repr

/-- `RuntimeMetadata`: the V14 payload, or any other version, whose payload is not read. -/
inductive RuntimeMetadata where
  | v14 (meta : RuntimeMetadataV14)
  | other (version : UInt8)
  deriving DecidableEq, Repr

/-- `RuntimeMetadataPrefixed(u32, RuntimeMetadata)`. -/
structure RuntimeMetadataPrefixed where
  magic : UInt32
  metadata : RuntimeMetadata
  deriving DecidableEq, Repr

/-- `META_RESERVED`: the magic prefix `b"meta"` read as a little-endian `u32`. -/
def META_RESERVED : UInt32 := 0x6174656d

end EventListener
