import EventListener.Metadata.Registry

/-!
# The type-hash engine (metadata_utils.rs:62–239)

`get_type_hash`, `get_type_def_hash`, `get_field_hash` and `get_variant_hash` are one mutual
recursion over the type graph, threading `visited_ids: &mut HashSet<u32>`. Here they run in
`HashM := StateT Visited (Except Stop)`: the state is the visited set, kept as a list with the
newest id first (an id is added only right before its definition is hashed), and `Stop` is how a
call ends without a hash: the `unwrap` on an id the registry does not resolve panics.

The recursion is not structural in the source. `getTypeHash` takes a `fuel` bound on the
nesting of expansions and stops with `Stop.outOfFuel` when it is exhausted;
`Termination.lean` shows the bound is never reached once it covers the unvisited ids of the
registry, which `get_storage_entry_hash` always gives it. The other three functions take the
`get_type_hash` they call as an argument, in any monad, so each keeps its own definition.

What `get_type_def_hash` does with that argument is said once (`getTypeDefHash_eq_mapM`): it
calls it on the definition's children (`TypeDef.children`), left to right, and combines the
results without reading anything else, as `typeDefHashOf` replays them. Every simulation of the
engine lifts through `get_type_def_hash` by this one fact (`Lifts.getTypeDefHash`). Likewise
`get_storage_entry_hash` is the fold `storageEntryFold` of the type hashes it computes
(`getStorageEntryHash_eq_fold`).

`visit` is the same recursion with the hashes left out: `getTypeHash_visited` shows that the
visited set, and whether the call stops, are those of `visit`. Every result about the visited
set and about termination is proved on `visit`.
-/

namespace EventListener

/-- How a hashing call ends without a hash: the source's `registry.resolve(id).unwrap()`
panics, or the model's fuel bound runs out. -/
inductive Stop where
  | panic
  | outOfFuel
  deriving DecidableEq, Repr

/-- `visited_ids`, newest id first. -/
abbrev Visited := List TypeId

/-- A computation with `visited_ids: &mut HashSet<u32>` that may panic. -/
abbrev HashM := StateT Visited (Except Stop)

@[simp] theorem except_ok_bind {ε α β : Type} (a : α) (f : α → Except ε β) :
    (Except.ok a >>= f) = f a := rfl

@[simp] theorem except_error_bind {ε α β : Type} (e : ε) (f : α → Except ε β) :
    (Except.error e >>= f) = Except.error e := rfl

@[simp] theorem except_map_ok {ε α β : Type} (a : α) (f : α → β) :
    (f <$> Except.ok a : Except ε β) = Except.ok (f a) := rfl

@[simp] theorem except_map_error {ε α β : Type} (e : ε) (f : α → β) :
    (f <$> Except.error e : Except ε β) = Except.error e := rfl

section Engine

variable (hash : List UInt8 → Hash) {m : Type → Type} [Monad m]

/-- The loop `for x in xs { bytes = hash_hashes(bytes, f(x)) }` shared by the composite,
variant and tuple cases and by `get_variant_hash`. -/
def hashHashesAll {α : Type} (f : α → m Hash) (bytes : Hash) (xs : List α) : m Hash :=
  xs.foldlM (fun bytes x => hashHashes hash bytes <$> f x) bytes

/-- `get_field_hash` (metadata_utils.rs:63): the field's type hash, XORed with the hash of
its name if it has one. -/
def getFieldHash (getTypeHash : TypeId → m Hash) (field : Field) : m Hash := do
  let bytes ← getTypeHash field.ty
  match field.name with
  | some name => pure (xor bytes (hash (asBytes name)))
  | none => pure bytes

/-- `get_variant_hash` (metadata_utils.rs:79): the name's hash, merged with each field's. -/
def getVariantHash (getTypeHash : TypeId → m Hash) (var : Variant) : m Hash :=
  hashHashesAll hash (getFieldHash hash getTypeHash) (hash (asBytes var.name)) var.fields

/-- `get_type_def_hash` (metadata_utils.rs:94). -/
def getTypeDefHash (getTypeHash : TypeId → m Hash) : TypeDef → m Hash
  | .composite fields =>
    hashHashesAll hash (getFieldHash hash getTypeHash) (hash [TypeBeingHashed.composite.toU8])
      fields
  | .variant variants =>
    hashHashesAll hash (getVariantHash hash getTypeHash) (hash [TypeBeingHashed.variant.toU8])
      variants
  | .sequence ty => xor (hash [TypeBeingHashed.sequence.toU8]) <$> getTypeHash ty
  | .array len ty =>
    xor (hash [TypeBeingHashed.array.toU8, (len >>> 24).toUInt8, (len >>> 16).toUInt8,
      (len >>> 8).toUInt8, len.toUInt8]) <$> getTypeHash ty
  | .tuple fields => hashHashesAll hash getTypeHash (hash [TypeBeingHashed.tuple.toU8]) fields
  | .primitive p => pure (hash [TypeBeingHashed.primitive.toU8, p.toU8])
  | .compact ty => xor (hash [TypeBeingHashed.compact.toU8]) <$> getTypeHash ty
  | .bitSequence store order => do
    let bytes := xor (hash [TypeBeingHashed.bitSequence.toU8]) (← getTypeHash order)
    pure (xor bytes (← getTypeHash store))

/-- The body of `get_type_hash` (metadata_utils.rs:171): the sentinel `hash(&[123])` for an id
already in `visited_ids`; otherwise the id is inserted, resolved (the `unwrap` panics on an id
the registry does not hold) and its definition hashed by `hashDef`. -/
def typeHashStep (R : PortableRegistry) (hashDef : TypeDef → HashM Hash) (id : TypeId) :
    HashM Hash := fun visited =>
  if id ∈ visited then pure (hash [123], visited)
  else match R.resolve id with
    | none => throw .panic
    | some ty => hashDef ty (id :: visited)

/-- `get_type_hash`, whose `fuel` bounds the nesting of expansions. -/
def getTypeHash (R : PortableRegistry) : Nat → TypeId → HashM Hash
  | 0 => typeHashStep hash R fun _ _ => throw .outOfFuel
  | n + 1 => typeHashStep hash R (getTypeDefHash hash (getTypeHash R n))

/-- `get_storage_entry_hash` (metadata_utils.rs:186). Each type hash is taken with fuel
`R.types.length`, which bounds the unvisited ids of any visited set. -/
def getStorageEntryHash (R : PortableRegistry) (entry : StorageEntryMetadata) : HashM Hash := do
  let bytes :=
    xor (xor (hash (asBytes entry.name)) (hash [entry.modifier.toU8])) (hash entry.default)
  match entry.ty with
  | .plain ty => pure (xor bytes (← getTypeHash hash R R.types.length ty))
  | .map hashers key value =>
    let bytes := hashers.foldl (fun bytes hasher => hashHashes hash bytes fun _ => hasher.toU8)
      bytes
    let bytes := xor bytes (← getTypeHash hash R R.types.length key)
    pure (xor bytes (← getTypeHash hash R R.types.length value))

/-- `NotFound` (metadata_utils.rs:244). -/
inductive NotFound where
  | pallet
  | item
  deriving DecidableEq, Repr

/-- `get_storage_hash` (metadata_utils.rs:218): find the first pallet and entry of the given
names and hash the entry from an empty visited set. The outer `Except` is whether the call
returns at all. -/
def getStorageHash (metadata : RuntimeMetadataV14) (palletName storageName : String) :
    Except Stop (Except NotFound Hash) :=
  match metadata.pallets.find? (fun p => p.name == palletName) with
  | none => pure (.error .pallet)
  | some pallet =>
    match pallet.storage with
    | none => pure (.error .item)
    | some storage =>
      match storage.entries.find? (fun s => s.name == storageName) with
      | none => pure (.error .item)
      | some entry => .ok <$> (getStorageEntryHash hash metadata.types entry).run' []

end Engine

/-! ## The storage-entry fold -/

/-- The type hashes an entry's fold takes in: the plain type's, or the hashers with the key
and value types'. -/
inductive EntryTypeHashes where
  | plain (ty : Hash)
  | map (hashers : List StorageHasher) (key value : Hash)

/-- The fold of `get_storage_entry_hash` (metadata_utils.rs:191–214) as a function of the
entry's name, modifier, default bytes and type hashes. -/
def storageEntryFold (hash : List UInt8 → Hash) (name : String) (modifier : StorageEntryModifier)
    (default : List UInt8) : EntryTypeHashes → Hash
  | .plain ty => xor (xor (xor (hash (asBytes name)) (hash [modifier.toU8])) (hash default)) ty
  | .map hashers key value =>
    xor (xor (hashers.foldl (fun bytes hasher => hashHashes hash bytes fun _ => hasher.toU8)
      (xor (xor (hash (asBytes name)) (hash [modifier.toU8])) (hash default))) key) value

/-- `get_storage_entry_hash` is the fold of the type hashes it computes, in order. -/
theorem getStorageEntryHash_eq_fold (hash : List UInt8 → Hash) (R : PortableRegistry)
    (e : StorageEntryMetadata) :
    getStorageEntryHash hash R e = (match e.ty with
      | .plain ty => (fun t => storageEntryFold hash e.name e.modifier e.default (.plain t)) <$>
          getTypeHash hash R R.types.length ty
      | .map hashers key value => do
          let k ← getTypeHash hash R R.types.length key
          let v ← getTypeHash hash R R.types.length value
          pure (storageEntryFold hash e.name e.modifier e.default (.map hashers k v))) := by
  obtain ⟨name, modifier, ty, default⟩ := e
  cases ty <;> rfl

/-! ## The two steps of `get_type_hash` -/

section Steps

variable {hash : List UInt8 → Hash} {R : PortableRegistry} {fuel : Nat} {id : TypeId}
  {V : Visited}

/-- An id already visited is hashed as the sentinel, and the visited set is left as it is. -/
theorem getTypeHash_of_mem (hid : id ∈ V) :
    (getTypeHash hash R fuel id).run V = .ok (hash [123], V) := by
  cases fuel <;> simp [getTypeHash, typeHashStep, StateT.run, hid] <;> rfl

/-- A fresh id the registry resolves is inserted, and its definition hashed. -/
theorem getTypeHash_succ_of_not_mem {ty : TypeDef} (hid : id ∉ V)
    (hty : R.resolve id = some ty) :
    (getTypeHash hash R (fuel + 1) id).run V =
      (getTypeDefHash hash (getTypeHash hash R fuel) ty).run (id :: V) := by
  simp [getTypeHash, typeHashStep, StateT.run, hid, hty]

end Steps

/-! ## What `get_type_def_hash` does with the `get_type_hash` it is given -/

/-- The next of the hashes a replay is fed, in call order. -/
def popHash : StateM (List Hash) Hash := fun hs => (hs.headD zeroHash, hs.tail)

/-- `get_type_def_hash` run on the hashes its calls of `get_type_hash` returned, in order. -/
def typeDefHashOf (hash : List UInt8 → Hash) (ty : TypeDef) (hs : List Hash) : Hash :=
  (Id.run ((getTypeDefHash hash (fun _ => popHash) ty).run hs)).1

/-- In a lawful monad, a continuation of `cs.mapM f` may assume the results are as many as
`cs`. -/
theorem mapM_bind_congr {m : Type → Type} [Monad m] [LawfulMonad m] {α β γ : Type}
    (f : α → m β) {k₁ k₂ : List β → m γ} :
    ∀ cs : List α, (∀ hs, hs.length = cs.length → k₁ hs = k₂ hs) →
      cs.mapM f >>= k₁ = cs.mapM f >>= k₂
  | [], h => by rw [List.mapM_nil, pure_bind, pure_bind, h [] rfl]
  | c :: cs, h => by
    simp only [List.mapM_cons, bind_assoc, pure_bind]
    exact congrArg _ (funext fun a => mapM_bind_congr f cs fun hs hl => h (a :: hs) (by simp [hl]))

/-- `p`, in any monad, calls its argument on the ids `cs` in order and combines the results
without reading anything else: it is the replay of its calls' results, and the replay takes
exactly one result per call. -/
structure Replays {β : Type} (cs : List TypeId)
    (p : ∀ {m : Type → Type} [Monad m], (TypeId → m Hash) → m β) : Prop where
  eq_map : ∀ {m : Type → Type} [Monad m] [LawfulMonad m] (rec : TypeId → m Hash),
    p rec = (fun hs => (Id.run ((p fun _ => popHash).run hs)).1) <$> cs.mapM rec
  run_append : ∀ hs rest, hs.length = cs.length →
    (p fun _ => popHash).run (hs ++ rest) = ((Id.run ((p fun _ => popHash).run hs)).1, rest)

namespace Replays

variable {α β : Type}

theorem pure (b : β) : Replays [] fun _ => (Pure.pure b) where
  eq_map _ := by
    rw [List.mapM_nil, map_pure]
    rfl
  run_append hs rest h := by
    rw [List.length_eq_zero.mp h]
    rfl

theorem call (c : TypeId) : Replays [c] fun rec => rec c where
  eq_map rec := by
    rw [List.mapM_cons, List.mapM_nil]
    simp only [pure_bind, map_bind, map_pure]
    exact (bind_pure _).symm
  run_append hs rest h := by
    obtain ⟨h₀, rfl⟩ : ∃ h₀, hs = [h₀] := List.length_eq_one.mp h
    rfl

theorem bind {cs₁ cs₂ : List TypeId} {p : ∀ {m : Type → Type} [Monad m], (TypeId → m Hash) → m α}
    {q : α → ∀ {m : Type → Type} [Monad m], (TypeId → m Hash) → m β}
    (hp : Replays cs₁ p) (hq : ∀ a, Replays cs₂ (q a)) :
    Replays (cs₁ ++ cs₂) fun rec => p rec >>= fun a => q a rec where
  eq_map rec := by
    rw [hp.eq_map, List.mapM_append, bind_map_left, map_bind]
    refine mapM_bind_congr rec cs₁ fun h₁ hl₁ => ?_
    rw [(hq _).eq_map, map_bind, map_eq_pure_bind]
    refine mapM_bind_congr rec cs₂ fun h₂ _ => ?_
    simp only [Function.comp, map_pure, StateT.run_bind, hp.run_append h₁ h₂ hl₁]
    rfl
  run_append hs rest h := by
    obtain ⟨hl₁, hl₂⟩ : (hs.take cs₁.length).length = cs₁.length ∧
        (hs.drop cs₁.length).length = cs₂.length := by
      simp only [List.length_append] at h
      simp only [List.length_take, List.length_drop]
      omega
    rw [← List.take_append_drop cs₁.length hs, List.append_assoc]
    simp only [StateT.run_bind, hp.run_append _ _ hl₁]
    exact (hq _).run_append _ rest hl₂

theorem map (f : α → β) {cs : List TypeId}
    {p : ∀ {m : Type → Type} [Monad m], (TypeId → m Hash) → m α} (hp : Replays cs p) :
    Replays cs fun rec => f <$> p rec where
  eq_map rec := by
    rw [hp.eq_map, Functor.map_map]
    rfl
  run_append hs rest h := by
    rw [StateT.run_map, hp.run_append hs rest h]
    rfl

/-- A fold whose steps replay their own calls replays the calls of all its steps. -/
theorem foldlM {γ : Type} {g : γ → List TypeId}
    {step : β → γ → ∀ {m : Type → Type} [Monad m], (TypeId → m Hash) → m β}
    (h : ∀ b x, Replays (g x) (step b x)) :
    ∀ (xs : List γ) (b : β), Replays (xs.flatMap g) fun rec => xs.foldlM (fun b x => step b x rec) b
  | [], b => Replays.pure b
  | x :: xs, b => by
    rw [List.flatMap_cons]
    exact (h b x).bind fun b' => foldlM h xs b'

end Replays

section Replay

variable (hash : List UInt8 → Hash)

theorem hashHashesAll_replays {γ : Type} {g : γ → List TypeId}
    {f : γ → ∀ {m : Type → Type} [Monad m], (TypeId → m Hash) → m Hash}
    (h : ∀ x, Replays (g x) (f x)) (bytes : Hash) (xs : List γ) :
    Replays (xs.flatMap g) fun rec => hashHashesAll hash (fun x => f x rec) bytes xs :=
  Replays.foldlM (fun b x => (h x).map (hashHashes hash b)) xs bytes

theorem getFieldHash_replays : ∀ field : Field,
    Replays [field.ty] fun rec => getFieldHash hash rec field
  | ⟨some _, ty⟩ => (Replays.call ty).bind fun _ => Replays.pure _
  | ⟨none, ty⟩ => (Replays.call ty).bind fun _ => Replays.pure _

theorem getVariantHash_replays (v : Variant) :
    Replays v.children fun rec => getVariantHash hash rec v := by
  rw [Variant.children, List.map_eq_flatMap]
  exact hashHashesAll_replays hash (getFieldHash_replays hash) _ v.fields

theorem getTypeDefHash_replays : ∀ ty : TypeDef,
    Replays ty.children fun rec => getTypeDefHash hash rec ty
  | .composite fields => by
    rw [TypeDef.children, List.map_eq_flatMap]
    exact hashHashesAll_replays hash (getFieldHash_replays hash) _ fields
  | .variant variants => hashHashesAll_replays hash (getVariantHash_replays hash) _ variants
  | .sequence ty | .array _ ty | .compact ty => (Replays.call ty).map _
  | .tuple fields => by
    have h := hashHashesAll_replays hash Replays.call (hash [TypeBeingHashed.tuple.toU8]) fields
    rwa [List.flatMap_singleton'] at h
  | .primitive _ => Replays.pure _
  | .bitSequence store order =>
    (Replays.call order).bind fun _ => (Replays.call store).bind fun _ => Replays.pure _

/-- **`get_type_def_hash` calls `get_type_hash` on the definition's children, left to right,
and combines what they return without reading anything else.** -/
theorem getTypeDefHash_eq_mapM {m : Type → Type} [Monad m] [LawfulMonad m]
    (rec : TypeId → m Hash) (ty : TypeDef) :
    getTypeDefHash hash rec ty = typeDefHashOf hash ty <$> ty.children.mapM rec :=
  (getTypeDefHash_replays hash ty).eq_map rec

end Replay

/-! ## Lifting a simulation through `get_type_def_hash` -/

/-- A relation between engine computations, graded by the ids they call on, that `pure` and
`bind` keep (the grades of a `bind` concatenate). -/
structure Lifts (Rel : List TypeId → ∀ {α : Type}, HashM α → HashM α → Prop) : Prop where
  pure : ∀ {α : Type} (a : α), Rel [] (Pure.pure a) (Pure.pure a)
  bind : ∀ {α β : Type} {o₁ o₂ : List TypeId} {m₁ m₂ : HashM α} {f₁ f₂ : α → HashM β},
    Rel o₁ m₁ m₂ → (∀ a, Rel o₂ (f₁ a) (f₂ a)) → Rel (o₁ ++ o₂) (m₁ >>= f₁) (m₂ >>= f₂)

namespace Lifts

variable {Rel : List TypeId → ∀ {α : Type}, HashM α → HashM α → Prop}

theorem map (L : Lifts Rel) {α β : Type} {o : List TypeId} {m₁ m₂ : HashM α} (f : α → β) (h : Rel o m₁ m₂) :
    Rel o (f <$> m₁) (f <$> m₂) := by
  simpa only [map_eq_pure_bind, List.append_nil] using L.bind h fun a => L.pure (f a)

theorem mapM (L : Lifts Rel) {β : Type} {g : TypeId → List TypeId} {rec₁ rec₂ : TypeId → HashM β} :
    ∀ cs : List TypeId, (∀ c ∈ cs, Rel (g c) (rec₁ c) (rec₂ c)) →
      Rel (cs.flatMap g) (cs.mapM rec₁) (cs.mapM rec₂)
  | [], _ => L.pure []
  | c :: cs, h => by
    simpa only [List.mapM_cons, List.flatMap_cons, List.append_nil] using
      L.bind (h c (List.mem_cons_self c cs)) fun a =>
        L.bind (L.mapM cs fun c' hc' => h c' (List.mem_cons_of_mem c hc')) fun as => L.pure (a :: as)

/-- **Every such relation lifts through `get_type_def_hash`**: related calls on the children
give related definition hashes. -/
theorem getTypeDefHash (L : Lifts Rel) {hash : List UInt8 → Hash} {g : TypeId → List TypeId}
    {rec₁ rec₂ : TypeId → HashM Hash} (ty : TypeDef)
    (h : ∀ c ∈ ty.children, Rel (g c) (rec₁ c) (rec₂ c)) :
    Rel (ty.children.flatMap g) (EventListener.getTypeDefHash hash rec₁ ty)
      (EventListener.getTypeDefHash hash rec₂ ty) := by
  rw [getTypeDefHash_eq_mapM, getTypeDefHash_eq_mapM]
  exact L.map _ (L.mapM _ h)

end Lifts

/-! ## The visited-set walk -/

/-- The body of `get_type_hash` with the hashes left out. -/
def visitStep (R : PortableRegistry) (visitDef : TypeDef → Visited → Except Stop Visited)
    (id : TypeId) (visited : Visited) : Except Stop Visited :=
  if id ∈ visited then pure visited
  else match R.resolve id with
    | none => throw .panic
    | some ty => visitDef ty (id :: visited)

/-- The recursion of `get_type_hash` with the hashes left out: what it does to the visited
set, and whether it stops. -/
def visit (R : PortableRegistry) : Nat → TypeId → Visited → Except Stop Visited
  | 0 => visitStep R fun _ _ => throw .outOfFuel
  | n + 1 => visitStep R fun ty => ty.children.foldlM fun visited c => visit R n c visited

/-! ## The hashing functions move the visited set as `visit` does -/

section Skeleton

variable {hash : List UInt8 → Hash} {R : PortableRegistry}
  {rec : TypeId → HashM Hash} {g : TypeId → Visited → Except Stop Visited}

/-- Calls made in order move the visited set as they do, in order. -/
theorem mapM_run_snd (hrec : ∀ c V, Prod.snd <$> (rec c).run V = g c V) :
    ∀ (cs : List TypeId) (V : Visited),
      Prod.snd <$> (cs.mapM rec).run V = cs.foldlM (fun V c => g c V) V
  | [], _ => rfl
  | c :: cs, V => by
    simp only [List.mapM_cons, List.foldlM_cons, StateT.run_bind, ← hrec c V]
    rcases (rec c).run V with _ | ⟨_, W⟩
    · rfl
    · simp only [except_ok_bind, except_map_ok, ← mapM_run_snd hrec cs W, StateT.run_bind]
      rcases (cs.mapM rec).run W with _ | _ <;> rfl

/-- `get_type_def_hash` moves the visited set as its calls on `ty.children` do, in order. -/
theorem getTypeDefHash_run_snd (hrec : ∀ c V, Prod.snd <$> (rec c).run V = g c V)
    (ty : TypeDef) (V : Visited) :
    Prod.snd <$> (getTypeDefHash hash rec ty).run V =
      ty.children.foldlM (fun V c => g c V) V := by
  rw [getTypeDefHash_eq_mapM, StateT.run_map, ← mapM_run_snd hrec]
  rcases (ty.children.mapM rec).run V with _ | _ <;> rfl

theorem typeHashStep_run_snd {hashDef : TypeDef → HashM Hash}
    {visitDef : TypeDef → Visited → Except Stop Visited}
    (h : ∀ ty V, Prod.snd <$> (hashDef ty).run V = visitDef ty V) (id : TypeId) (V : Visited) :
    Prod.snd <$> (typeHashStep hash R hashDef id).run V = visitStep R visitDef id V := by
  by_cases hid : id ∈ V
  · simp only [typeHashStep, visitStep, StateT.run, hid, if_true]
    rfl
  · simp only [typeHashStep, visitStep, StateT.run, hid, if_false]
    cases R.resolve id
    · rfl
    · exact h _ _

/-- **The visited set of `get_type_hash` is that of `visit`**, and so is whether it stops. -/
theorem getTypeHash_visited :
    ∀ fuel id V, Prod.snd <$> (getTypeHash hash R fuel id).run V = visit R fuel id V
  | 0, id, V => typeHashStep_run_snd (fun _ _ => rfl) id V
  | n + 1, id, V => typeHashStep_run_snd (getTypeDefHash_run_snd (getTypeHash_visited n)) id V

/-- A walk that returns `W` is a hash computation that returns with visited set `W`. -/
theorem getTypeHash_run_of_visit {fuel : Nat} {id : TypeId} {V W : Visited}
    (h : visit R fuel id V = .ok W) : ∃ bytes, (getTypeHash hash R fuel id).run V = .ok (bytes, W) := by
  have hv : Prod.snd <$> (getTypeHash hash R fuel id).run V = visit R fuel id V :=
    getTypeHash_visited fuel id V
  rw [h] at hv
  rcases hr : (getTypeHash hash R fuel id).run V with e | ⟨bytes, W'⟩ <;> rw [hr] at hv <;> cases hv
  exact ⟨bytes, rfl⟩

end Skeleton

end EventListener
