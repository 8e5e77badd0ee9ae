import EventListener.Metadata.EventTable
import Mathlib.Data.UInt

/-!
# Building an online client

`OnlineClient::from_rpc_client` (online_client.rs:76) fetches the runtime version and the
metadata concurrently, then takes the runtime version's result first and the metadata's second,
each with `?`. `Rpc::metadata` (rpc.rs:163) asks the transport for `state_getMetadata`, decodes
the bytes with the SCALE codec and validates them with `Metadata::try_from`, wrapping each
failure in its variant of `Error` (error.rs).

The transport and the codec are external: their results are the inputs of the model.

- `Rpc.metadata`, `OnlineClient.fromRpcClient`.
- `toHex` (rpc.rs:211), the storage key parameter of `state_getStorage`, and
  `toHex_roundTrip`: a hex decoder recovers the key, so distinct keys give distinct requests.
-/

namespace EventListener

/-- `RuntimeVersion` (rpc.rs:95): the two versions; the other fields of the response go into a
map that no modelled function reads. -/
structure RuntimeVersion where
  specVersion : UInt32
  transactionVersion : UInt32
  deriving DecidableEq, Repr

/-- `RpcError` (error.rs:64): the transport's message. -/
structure RpcError where
  msg : String
  deriving DecidableEq, Repr

/-- `codec::Error`, external: its description. -/
structure CodecError where
  desc : String
  deriving DecidableEq, Repr

/-- `Error` (error.rs:24). The payloads of external error types are their descriptions. -/
inductive Error where
  | codec (e : CodecError)
  | rpc (e : RpcError)
  | serialization (desc : String)
  | invalid (desc : String)
  | invalidMetadata (e : InvalidMetadataError)
  | metadata (e : MetadataError)
  | decodeValue (desc : String)
  | encodeValue (desc : String)
  | other (msg : String)

/-- `Rpc::metadata` (rpc.rs:163): the transport's response to `state_getMetadata`, decoded by
`decode` and validated by `Metadata::try_from`. -/
def Rpc.metadata (decode : List UInt8 → Except CodecError RuntimeMetadataPrefixed)
    (response : Except Error (List UInt8)) : Except Error Metadata := do
  let bytes ← response
  let meta ← (decode bytes).mapError .codec
  (Metadata.tryFrom meta).mapError .invalidMetadata

/-- `OnlineClient` (online_client.rs:33): the inner cell's runtime version and metadata; the
`Rpc` handle is the transport itself. -/
structure OnlineClient where
  runtimeVersion : RuntimeVersion
  metadata : Metadata

/-- `OnlineClient::from_rpc_client` (online_client.rs:76), given the results of the two
joined fetches. -/
def OnlineClient.fromRpcClient (runtimeVersion : Except Error RuntimeVersion)
    (metadata : Except Error Metadata) : Except Error OnlineClient := do
  let runtimeVersion ← runtimeVersion
  let metadata ← metadata
  pure ⟨runtimeVersion, metadata⟩

/-! ## The storage key parameter -/

/-- A nibble as `hex::encode` writes it: `0`–`9`, then `a`–`f`. -/
def hexDigit (n : Nat) : Char := if n < 10 then Char.ofNat (48 + n) else Char.ofNat (87 + n)

/-- A byte as two hex digits, high nibble first. -/
def hexByte (b : UInt8) : List Char := [hexDigit (b.toNat / 16), hexDigit (b.toNat % 16)]

/-- `hex::encode`: lowercase, two digits per byte. -/
def hexEncode (bytes : List UInt8) : String := String.mk (bytes.flatMap hexByte)

/-- `to_hex` (rpc.rs:211): `format!("0x{}", hex::encode(bytes))`. -/
def toHex (bytes : List UInt8) : String := "0x" ++ hexEncode bytes

example : toHex [0, 255, 18] = "0x00ff12" := by decide

/-- The value of a hex digit, lowercase or decimal. -/
def hexValue (c : Char) : Option Nat :=
  if '0' ≤ c ∧ c ≤ '9' then some (c.toNat - 48)
  else if 'a' ≤ c ∧ c ≤ 'f' then some (c.toNat - 87) else none

/-- Pairs of hex digits back to bytes. -/
def decodePairs : List Char → Option (List UInt8)
  | [] => some []
  | hi :: lo :: rest => do
    let h ← hexValue hi
    let l ← hexValue lo
    let bs ← decodePairs rest
    pure ((h * 16 + l).toUInt8 :: bs)
  | [_] => none

/-- A `0x`-prefixed hex string back to bytes, as a node reads the storage key. -/
def fromHex (s : String) : Option (List UInt8) :=
  match s.toList with
  | '0' :: 'x' :: rest => decodePairs rest
  | _ => none

theorem hexValue_hexDigit : ∀ n < 16, hexValue (hexDigit n) = some n := by decide

theorem toUInt8_toNat (b : UInt8) : b.toNat.toUInt8 = b :=
  UInt8.toNat.inj (UInt8.toNat_ofNat_of_lt (UInt8.toNat_lt_size b))

theorem decodePairs_hexBytes : ∀ bytes : List UInt8, decodePairs (bytes.flatMap hexByte) = some bytes
  | [] => rfl
  | b :: bs => by
    have hb : b.toNat < 256 := UInt8.toNat_lt_size b
    show decodePairs (hexDigit (b.toNat / 16) :: hexDigit (b.toNat % 16) :: bs.flatMap hexByte) = _
    simp [decodePairs, hexValue_hexDigit _ (by omega : b.toNat / 16 < 16),
      hexValue_hexDigit _ (by omega : b.toNat % 16 < 16), decodePairs_hexBytes bs,
      Nat.div_add_mod', toUInt8_toNat]

/-- **`to_hex` loses nothing**: decoding its output gives the bytes back, so two storage keys
give the same `state_getStorage` parameter only if they are equal. -/
theorem toHex_roundTrip :
    (∀ bytes, fromHex (toHex bytes) = some bytes) ∧ ∀ a b, toHex a = toHex b → a = b :=
  ⟨decodePairs_hexBytes, fun a b h => Option.some.inj
    ((decodePairs_hexBytes a).symm.trans ((congrArg fromHex h).trans (decodePairs_hexBytes b)))⟩

end EventListener
