import EventListener.Metadata.TypeHash
import Mathlib.Data.List.Nodup

/-!
# On tree-shaped references the type hash is the structural hash

`get_type_hash` guards against recursive types with a visited set that it never pops. The
guard is harmless exactly when the traversal never meets an id twice: if the ids of the
reference tree unfolded from `id` (`unfolded`) are pairwise distinct and none is already
visited, `get_type_hash` returns the hash of `plainTypeHash`, the per-kind rules of
`get_type_def_hash` applied with no visited set, and leaves the unfolded ids on top of the
visited set (`getTypeHash_eq_plainTypeHash`). The shared id of `getTypeHash_sharedId` is the
case this excludes.

The proof is a simulation: `Unfolds o m₁ m₂` says `m₁` returns what `m₂` returns and pushes
the ids `o`; it is kept by `pure` and `bind` (the pushed ids concatenate), so by
`get_type_def_hash` (`unfolds_lifts`).
-/

namespace EventListener

section Plain

variable (hash : List UInt8 → Hash)

/-- The body of the structural hash: `typeHashStep` with no visited check and no insertion. -/
def plainStep (R : PortableRegistry) (hashDef : TypeDef → HashM Hash) (id : TypeId) :
    HashM Hash := fun visited =>
  match R.resolve id with
  | none => throw .panic
  | some ty => hashDef ty visited

/-- The plain structural hash: the per-kind rules of `get_type_def_hash` applied recursively
with no visited set (it is threaded through but never read or extended). `fuel` bounds the
nesting as in `getTypeHash`; an unresolvable id stops it as `get_type_hash` does. -/
def plainTypeHash (R : PortableRegistry) : Nat → TypeId → HashM Hash
  | 0 => plainStep R fun _ _ => throw .outOfFuel
  | n + 1 => plainStep R (getTypeDefHash hash (plainTypeHash R n))

end Plain

/-- The ids of the reference tree unfolded from `id` to depth `fuel`, in the order a
traversal meets them. -/
def unfolded (R : PortableRegistry) : Nat → TypeId → List TypeId
  | 0, id => [id]
  | n + 1, id => id :: ((R.resolve id).map fun ty => ty.children.flatMap (unfolded R n)).getD []

/-! ## The simulation -/

/-- If the ids `o` are distinct, `m₁` from a visited set that holds none of them returns what
`m₂` returns from any visited set, and pushes `o` onto its visited set. -/
def Unfolds {α : Type} (o : List TypeId) (m₁ m₂ : HashM α) : Prop :=
  o.Nodup → ∀ W W', o.Disjoint W → m₁.run W = (fun p => (p.1, o.reverse ++ W)) <$> m₂.run W'

section Simulation

variable {α β : Type}

theorem Unfolds.pure (a : α) : Unfolds [] (pure a : HashM α) (pure a) := fun _ _ _ _ => rfl

theorem Unfolds.bind {o₁ o₂ : List TypeId} {m₁ m₂ : HashM α} {f₁ f₂ : α → HashM β}
    (hm : Unfolds o₁ m₁ m₂) (hf : ∀ a, Unfolds o₂ (f₁ a) (f₂ a)) :
    Unfolds (o₁ ++ o₂) (m₁ >>= f₁) (m₂ >>= f₂) := by
  intro hnd W W' hd
  obtain ⟨hnd₁, hnd₂, h₁₂⟩ := List.nodup_append.mp hnd
  obtain ⟨hd₁, hd₂⟩ := List.disjoint_append_left.mp hd
  simp only [StateT.run_bind, hm hnd₁ W W' hd₁]
  rcases m₂.run W' with _ | ⟨a, W''⟩
  · rfl
  · have hd₂' : o₂.Disjoint (o₁.reverse ++ W) := fun x hx₂ hx => by
      rcases List.mem_append.mp hx with hx₁ | hxW
      · exact h₁₂ (List.mem_reverse.mp hx₁) hx₂
      · exact hd₂ hx₂ hxW
    simp only [except_map_ok, except_ok_bind, hf a hnd₂ _ W'' hd₂', List.reverse_append,
      List.append_assoc]

/-- `Unfolds`, graded by the pushed ids, lifts through `get_type_def_hash`. -/
theorem unfolds_lifts : Lifts fun o {_} m₁ m₂ => Unfolds o m₁ m₂ := ⟨Unfolds.pure, Unfolds.bind⟩

end Simulation

section Engine

variable {hash : List UInt8 → Hash} {R : PortableRegistry}

/-- One step: a fresh id is pushed before the ids its definition's hash pushes. -/
theorem typeHashStep_unfolds {hashDef₁ hashDef₂ : TypeDef → HashM Hash} {id : TypeId}
    {o : List TypeId} (hdef : ∀ ty, R.resolve id = some ty → Unfolds o (hashDef₁ ty) (hashDef₂ ty)) :
    Unfolds (id :: o) (typeHashStep hash R hashDef₁ id) (plainStep R hashDef₂ id) := by
  intro hnd W W' hd
  obtain ⟨hido, hndo⟩ := List.nodup_cons.mp hnd
  have hid : id ∉ W := hd (List.mem_cons_self id o)
  have hdo : o.Disjoint (id :: W) := fun x hx hxW => by
    rcases List.mem_cons.mp hxW with rfl | hxW
    · exact hido hx
    · exact hd (List.mem_cons_of_mem id hx) hxW
  simp only [typeHashStep, plainStep, StateT.run, hid, if_false, List.reverse_cons,
    List.append_assoc, List.singleton_append]
  rcases hty : R.resolve id with _ | ty
  · rfl
  · exact hdef ty hty hndo (id :: W) W' hdo

theorem getTypeHash_unfolds : ∀ fuel id,
    Unfolds (unfolded R fuel id) (getTypeHash hash R fuel id) (plainTypeHash hash R fuel id)
  | 0, _ => typeHashStep_unfolds fun _ _ _ _ _ _ => rfl
  | n + 1, id => typeHashStep_unfolds fun ty hty => by
    simpa only [hty, Option.map_some', Option.getD_some]
      using unfolds_lifts.getTypeDefHash ty fun c _ => getTypeHash_unfolds n c

end Engine

/-- **On tree-shaped references `get_type_hash` is the structural hash**: if the ids unfolded
from `id` are distinct and none is in `V`, the sentinel never fires; `get_type_hash` returns
what `plainTypeHash` returns and pushes exactly the unfolded ids. -/
theorem getTypeHash_eq_plainTypeHash (hash : List UInt8 → Hash) (R : PortableRegistry)
    (fuel : Nat) (id : TypeId) (V : Visited) (hnd : (unfolded R fuel id).Nodup)
    (hV : ∀ x ∈ unfolded R fuel id, x ∉ V) :
    (getTypeHash hash R fuel id).run V =
      (fun p => (p.1, (unfolded R fuel id).reverse ++ V)) <$> (plainTypeHash hash R fuel id).run V :=
  getTypeHash_unfolds fuel id hnd V V hV

/-- Two `u8` ids and the tuple `(u8, u8)` of both at id 2: a tree. -/
def distinctU8Pair : PortableRegistry := ⟨[.primitive .u8, .primitive .u8, .tuple [0, 1]]⟩

theorem getTypeHash_eq_plainTypeHash_distinctU8Pair : (unfolded distinctU8Pair 2 2).Nodup ∧
    (∀ x ∈ unfolded distinctU8Pair 2 2, x ∉ ([] : Visited)) ∧ ∀ hash : List UInt8 → Hash,
      (getTypeHash hash distinctU8Pair 2 2).run [] =
        (fun p => (p.1, (unfolded distinctU8Pair 2 2).reverse)) <$>
          (plainTypeHash hash distinctU8Pair 2 2).run [] :=
  ⟨by decide, by decide, fun hash =>
    (getTypeHash_eq_plainTypeHash hash distinctU8Pair 2 2 [] (by decide) (by decide)).trans
      (by rw [List.append_nil])⟩

/-! ## The sentinel on a shared, acyclic id -/

/-- `u8` at id 0 and the tuple `(u8, u8)` at id 1, both members the id 0. -/
def sharedU8Pair : PortableRegistry := ⟨[.primitive .u8, .tuple [0, 0]]⟩

/-- A hash function for evaluation: byte `i` is `bytes[i] ^ bytes[i + 32]`. -/
def foldHash (bytes : List UInt8) : Hash := fun i => bytes.getD i.val 0 ^^^ bytes.getD (i.val + 32) 0

/-- **The sentinel fires on an acyclic shared id**: for every hash function, the tuple
`(u8, u8)` with one shared id hashes its second member as `hash(&[123])`, where the structural
hash has the `u8` hash; under `foldHash` the two differ. -/
theorem getTypeHash_sharedId :
    (∀ hash : List UInt8 → Hash,
      (getTypeHash hash sharedU8Pair 2 1).run' [] =
        .ok (hashHashes hash (hashHashes hash (hash [4]) (hash [5, 3])) (hash [123])) ∧
      (plainTypeHash hash sharedU8Pair 2 1).run' [] =
        .ok (hashHashes hash (hashHashes hash (hash [4]) (hash [5, 3])) (hash [5, 3]))) ∧
    hashHashes foldHash (hashHashes foldHash (foldHash [4]) (foldHash [5, 3])) (foldHash [123]) ≠
      hashHashes foldHash (hashHashes foldHash (foldHash [4]) (foldHash [5, 3])) (foldHash [5, 3]) :=
  ⟨fun _ => ⟨rfl, rfl⟩, by decide⟩

end EventListener
