import EventListener.Metadata.Visited

/-!
# What a type hash reads of the visited set

`get_type_hash` consults the visited set only at the ids it meets, and it meets only ids
reachable from its start. So two visited sets that hold the same reachable ids give the same
hash, the same stop, and again visited sets that agree on those ids (`getTypeHash_framed`).
The proof is a simulation, `Framed S m`: `m` run from two visited sets that agree on `S` gives
related results; it is kept by `pure` and `bind`, so by `get_type_def_hash` over children in
`S` (`framed_lifts`).

Consequences for the callers, for every registry and every hash function:

- `getTypeHash_nestedWrapper`: a sequence of sequences of `T` (likewise compact of compact,
  and array of array of one length) hashes as `T`, whenever the two wrapper ids are not
  reachable from `T`: the two tags cancel. So `Vec<Vec<u8>>` hashes as `u8`
  (`getTypeHash_nestedSequence`).
- `getStorageEntryHash_keyValueSwap`: `get_storage_entry_hash` of a map is unchanged when the
  key and value types are swapped, whenever they reach no common id, panics included; the
  fold itself is symmetric in the two type hashes, whatever they are
  (`storageEntryFold_keyValueSwap`).
- `getStorageEntryHash_sharedValue`: a map whose value type is reachable from its key type
  folds the sentinel `hash(&[123])` in place of the value's type hash, whatever the value is.
-/

namespace EventListener

/-! ## Reachability facts -/

/-- A path can be extended by one more reference at its end. -/
theorem Reach.snoc {R : PortableRegistry} {V : Visited} {i x c : TypeId} {ty : TypeDef}
    (h : Reach R V i x) (hx : R.resolve x = some ty) (hc : c ∈ ty.children) (hcV : c ∉ V) :
    Reach R V i c := by
  induction h with
  | refl hi => exact .step hi hx hc (.refl hcV)
  | step hi hty hj _ ih => exact .step hi hty hj (ih hx)

/-- From a definition with no children nothing but itself is reachable. -/
theorem Reach.eq_of_children_nil {R : PortableRegistry} {V : Visited} {i x : TypeId}
    {ty : TypeDef} (hi : R.resolve i = some ty) (hnil : ty.children = []) (h : Reach R V i x) :
    x = i := by
  cases h with
  | refl _ => rfl
  | step _ hty hj _ =>
    rw [hi] at hty
    cases hty
    simp [hnil] at hj

/-! ## Visited sets that agree on a set of ids -/

/-- Two visited sets that hold the same ids of `S`. -/
def AgreeOn (S : TypeId → Prop) (W₁ W₂ : Visited) : Prop :=
  ∀ x, S x → (x ∈ W₁ ↔ x ∈ W₂)

theorem AgreeOn.cons {S : TypeId → Prop} {W₁ W₂ : Visited} (h : AgreeOn S W₁ W₂) (x : TypeId) :
    AgreeOn S (x :: W₁) (x :: W₂) := fun y hy => by
  simp only [List.mem_cons, h y hy]

/-- Two results of one computation run from visited sets that agree on `S`: the same stop, or
the same value with visited sets that again agree on `S`. -/
def FrameResult {α : Type} (S : TypeId → Prop) :
    Except Stop (α × Visited) → Except Stop (α × Visited) → Prop
  | .ok (a, W₁), .ok (b, W₂) => a = b ∧ AgreeOn S W₁ W₂
  | .error e₁, .error e₂ => e₁ = e₂
  | _, _ => False

theorem FrameResult.eq_error {α : Type} {S : TypeId → Prop} {e : Stop} :
    ∀ {r : Except Stop (α × Visited)}, FrameResult S r (.error e) → r = .error e
  | .error _, h => congrArg Except.error h
  | .ok _, h => h.elim

theorem FrameResult.eq_ok {α : Type} {S : TypeId → Prop} {a : α} {W : Visited} :
    ∀ {r : Except Stop (α × Visited)}, FrameResult S r (.ok (a, W)) →
      ∃ W', r = .ok (a, W') ∧ AgreeOn S W' W
  | .ok (_, W'), ⟨rfl, h⟩ => ⟨W', rfl, h⟩
  | .error _, h => h.elim

theorem FrameResult.fst_eq {α : Type} {S : TypeId → Prop} :
    ∀ {r₁ r₂ : Except Stop (α × Visited)}, FrameResult S r₁ r₂ → Prod.fst <$> r₁ = Prod.fst <$> r₂
  | .ok (_, _), .ok (_, _), ⟨rfl, _⟩ => rfl
  | .error _, .error _, h => h ▸ rfl
  | .ok _, .error _, h => h.elim
  | .error _, .ok _, h => h.elim

/-- `m` reads the visited set only at ids of `S`. -/
def Framed {α : Type} (S : TypeId → Prop) (m : HashM α) : Prop :=
  ∀ W₁ W₂, AgreeOn S W₁ W₂ → FrameResult S (m.run W₁) (m.run W₂)

section Simulation

variable {S : TypeId → Prop} {α β : Type}

theorem Framed.pure (a : α) : Framed S (pure a : HashM α) := fun _ _ h => ⟨rfl, h⟩

theorem Framed.bind {m : HashM α} {f : α → HashM β} (hm : Framed S m)
    (hf : ∀ a, Framed S (f a)) : Framed S (m >>= f) := by
  intro W₁ W₂ hW
  simp only [StateT.run_bind]
  match m.run W₁, m.run W₂, hm W₁ W₂ hW with
  | .error _, .error _, h => exact h
  | .ok (a, W₁'), .ok (_, W₂'), ⟨rfl, hW'⟩ => exact hf a W₁' W₂' hW'

/-- `Framed S`, on both sides, lifts through `get_type_def_hash`. -/
theorem framed_lifts : Lifts fun _ {_} m₁ m₂ => Framed S m₁ ∧ Framed S m₂ :=
  ⟨fun a => ⟨Framed.pure a, Framed.pure a⟩, fun hm hf =>
    ⟨hm.1.bind fun a => (hf a).1, hm.2.bind fun a => (hf a).2⟩⟩

end Simulation

section Engine

variable {hash : List UInt8 → Hash} {R : PortableRegistry} {S : TypeId → Prop}

theorem typeHashStep_framed {hashDef : TypeDef → HashM Hash} {id : TypeId} (hid : S id)
    (hdef : ∀ ty, R.resolve id = some ty → Framed S (hashDef ty)) :
    Framed S (typeHashStep hash R hashDef id) := by
  intro W₁ W₂ hW
  by_cases h₁ : id ∈ W₁
  · have h₂ : id ∈ W₂ := (hW id hid).mp h₁
    simp only [typeHashStep, StateT.run, h₁, h₂, if_true]
    exact ⟨rfl, hW⟩
  · have h₂ : id ∉ W₂ := fun h => h₁ ((hW id hid).mpr h)
    simp only [typeHashStep, StateT.run, h₁, h₂, if_false]
    rcases hty : R.resolve id with _ | ty
    · rfl
    · exact hdef ty hty _ _ (hW.cons id)

/-- **`get_type_hash` reads the visited set only on a set of ids closed under children.** -/
theorem getTypeHash_framed
    (hS : ∀ x ty, S x → R.resolve x = some ty → ∀ c ∈ ty.children, S c) :
    ∀ fuel id, S id → Framed S (getTypeHash hash R fuel id)
  | 0, _, hid => typeHashStep_framed hid fun _ _ _ _ _ => rfl
  | n + 1, id, hid => typeHashStep_framed hid fun ty hty =>
    (framed_lifts.getTypeDefHash (g := fun _ => []) ty fun c hc =>
      have h := getTypeHash_framed hS n c (hS id ty hid hty c hc)
      ⟨h, h⟩).1

/-- The ids reachable from `t` are such a set. -/
theorem getTypeHash_frame (fuel : Nat) (t : TypeId) :
    Framed (Reach R [] t) (getTypeHash hash R fuel t) :=
  getTypeHash_framed (fun _ _ hx hty _ hc => hx.snoc hty hc (List.not_mem_nil _)) fuel t
    (.refl (List.not_mem_nil t))

end Engine

/-! ## Nested wrappers -/

/-- The wrapper kinds hash as a tag XORed with the element's hash. -/
theorem getTypeDefHash_wrapper (hash : List UInt8 → Hash) {wrap : TypeId → TypeDef}
    (hw : wrap = .sequence ∨ wrap = .compact ∨ ∃ len, wrap = .array len) :
    ∃ tag : Hash, ∀ (rec : TypeId → HashM Hash) (y : TypeId),
      getTypeDefHash hash rec (wrap y) = xor tag <$> rec y := by
  rcases hw with rfl | rfl | ⟨len, rfl⟩ <;> exact ⟨_, fun _ _ => rfl⟩

/-- **A wrapper of a wrapper of `T` hashes as `T`.** For a sequence of sequences (a compact of
a compact, an array of an array of one length) at fresh ids `a` and `b` that `T` does not reach,
the two equal tags cancel and the hash is `T`'s from the same visited set, stop included. -/
theorem getTypeHash_nestedWrapper (hash : List UInt8 → Hash) (R : PortableRegistry)
    (wrap : TypeId → TypeDef) (hw : wrap = .sequence ∨ wrap = .compact ∨ ∃ len, wrap = .array len)
    (a b t : TypeId) (V : Visited) (fuel : Nat) (ha : R.resolve a = some (wrap b))
    (hb : R.resolve b = some (wrap t)) (haV : a ∉ V) (hbV : b ∉ V) (hba : b ≠ a)
    (hta : ¬ Reach R [] t a) (htb : ¬ Reach R [] t b) :
    Prod.fst <$> (getTypeHash hash R (fuel + 2) a).run V =
      Prod.fst <$> (getTypeHash hash R fuel t).run V := by
  obtain ⟨tag, htag⟩ := getTypeDefHash_wrapper hash hw
  have hbaV : b ∉ a :: V := by simp [hba, hbV]
  have hagree : AgreeOn (Reach R [] t) (b :: a :: V) V := fun x hx => by
    have hxa : x ≠ a := fun h => hta (h ▸ hx)
    have hxb : x ≠ b := fun h => htb (h ▸ hx)
    simp [hxa, hxb]
  rw [getTypeHash_succ_of_not_mem haV ha, htag, StateT.run_map, getTypeHash_succ_of_not_mem hbaV hb,
    htag, StateT.run_map, ← (getTypeHash_frame fuel t _ _ hagree).fst_eq]
  rcases (getTypeHash hash R fuel t).run (b :: a :: V) with _ | _ <;> simp

/-- `Compact<Compact<u8>>`: `u8` at id 0, `Compact` of it at id 1, `Compact` of that at id 2. -/
def nestedCompact : PortableRegistry := ⟨[.primitive .u8, .compact 0, .compact 1]⟩

theorem getTypeHash_nestedWrapper_compact :
    ¬ Reach nestedCompact [] 0 2 ∧ ¬ Reach nestedCompact [] 0 1 ∧ ∀ hash : List UInt8 → Hash,
      Prod.fst <$> (getTypeHash hash nestedCompact 3 2).run [] =
        Prod.fst <$> (getTypeHash hash nestedCompact 1 0).run [] := by
  have h₀ : ∀ x, Reach nestedCompact [] 0 x → x = 0 := fun _ hx =>
    Reach.eq_of_children_nil (R := nestedCompact) rfl rfl hx
  have h₂ : ¬ Reach nestedCompact [] 0 2 := fun h => absurd (h₀ 2 h) (by decide)
  have h₁ : ¬ Reach nestedCompact [] 0 1 := fun h => absurd (h₀ 1 h) (by decide)
  exact ⟨h₂, h₁, fun hash => getTypeHash_nestedWrapper hash nestedCompact .compact (.inr (.inl rfl))
    2 1 0 [] 1 rfl rfl (List.not_mem_nil 2) (List.not_mem_nil 1) (by decide) h₂ h₁⟩

/-- `u8` at id 0, `Vec<u8>` at id 1, `Vec<Vec<u8>>` at id 2. -/
def nestedSequence : PortableRegistry := ⟨[.primitive .u8, .sequence 0, .sequence 1]⟩

/-- `u8` alone. -/
def justU8 : PortableRegistry := ⟨[.primitive .u8]⟩

/-- **`Vec<Vec<u8>>` hashes as `u8`**, for every hash function: the two sequence tags cancel. -/
theorem getTypeHash_nestedSequence : ∀ hash : List UInt8 → Hash,
    (getTypeHash hash nestedSequence 3 2).run' [] = (getTypeHash hash justU8 1 0).run' [] := by
  intro hash
  show Except.ok (xor (hash [2]) (xor (hash [2]) (hash [5, 3]))) = .ok (hash [5, 3])
  rw [xor_cancel_left]

/-! ## The two type hashes of a storage map -/

/-- **A value type reachable from the key type is hashed as the sentinel.** The key's walk
leaves every id it reaches in the visited set it shares with the value's walk, so a map whose
value type is reachable from its key type (the same type in particular, as in
`Map<u32, u32>`) folds `hash(&[123])` in place of the value's type hash, whatever the value
type is; a panic of the key's walk propagates as it is. -/
theorem getStorageEntryHash_sharedValue (hash : List UInt8 → Hash) (R : PortableRegistry)
    (name : String) (modifier : StorageEntryModifier) (default : List UInt8)
    (hashers : List StorageHasher) (key value : TypeId) (hval : Reach R [] key value) :
    (getStorageEntryHash hash R ⟨name, modifier, .map hashers key value, default⟩).run' [] =
      (fun k => storageEntryFold hash name modifier default (.map hashers k (hash [123]))) <$>
        (getTypeHash hash R R.types.length key).run' [] := by
  rw [getStorageEntryHash_eq_fold]
  simp only [StateT.run'_eq, StateT.run_bind]
  rcases hk : (getTypeHash hash R R.types.length key).run [] with e | ⟨k, W⟩
  · rfl
  · have hv : value ∈ W := (getTypeHash_walked hk).reach_mem hval
    simp only [except_ok_bind, getTypeHash_of_mem hv]
    rfl

/-- `Map<u8, u8>`: the value type is the key type. -/
theorem getStorageEntryHash_sharedValue_u8 : Reach justU8 [] 0 0 ∧ ∀ hash : List UInt8 → Hash,
    (getStorageEntryHash hash justU8 ⟨"Account", .optional, .map [.blake2_128Concat] 0 0, [0]⟩).run' [] =
      (fun k => storageEntryFold hash "Account" .optional [0]
        (.map [.blake2_128Concat] k (hash [123]))) <$> (getTypeHash hash justU8 1 0).run' [] :=
  ⟨.refl (List.not_mem_nil 0), fun hash =>
    getStorageEntryHash_sharedValue hash justU8 "Account" .optional [0] [.blake2_128Concat] 0 0
      (.refl (List.not_mem_nil 0))⟩

section Swap

variable {hash : List UInt8 → Hash} {R : PortableRegistry}

/-- After a returning walk of `u` from the empty set, a walk of a type `t` that shares no id
with `u` runs as it does from the empty set. -/
theorem getTypeHash_after_disjoint {t u : TypeId} {fuel : Nat} {bytes : Hash} {W : Visited}
    (hdisj : ∀ x, Reach R [] u x → ¬ Reach R [] t x)
    (hu : (getTypeHash hash R fuel u).run [] = .ok (bytes, W)) (fuel' : Nat) :
    FrameResult (Reach R [] t) ((getTypeHash hash R fuel' t).run W)
      ((getTypeHash hash R fuel' t).run []) :=
  getTypeHash_frame fuel' t W [] fun x hx => ⟨fun hxW => absurd hx (hdisj x
    ((getTypeHash_walked hu).sound x hxW (List.not_mem_nil x))), fun h => absurd h (List.not_mem_nil x)⟩

/-- With the registry's length as fuel a walk from the empty set stops only by a panic. -/
theorem getTypeHash_error_panic {t : TypeId} {e : Stop}
    (h : (getTypeHash hash R R.types.length t).run [] = .error e) : e = .panic := by
  cases e
  · rfl
  · exact absurd h (getTypeHash_ne_outOfFuel unvisited_le_length t)

end Swap

/-- **Swapping independent key and value types never changes a map's hash.** When no type id is
reachable from both the key and the value type, each walk reads the shared visited set only
at ids the other never adds, so `get_storage_entry_hash` of `Map<K, V>` and of `Map<V, K>` are
equal for every hash function, panics included: the XOR of the two type hashes forgets which
is the key. -/
theorem getStorageEntryHash_keyValueSwap (hash : List UInt8 → Hash) (R : PortableRegistry)
    (name : String) (modifier : StorageEntryModifier) (default : List UInt8)
    (hashers : List StorageHasher) (key value : TypeId)
    (hdisj : ∀ x, Reach R [] key x → ¬ Reach R [] value x) :
    (getStorageEntryHash hash R ⟨name, modifier, .map hashers key value, default⟩).run' [] =
      (getStorageEntryHash hash R ⟨name, modifier, .map hashers value key, default⟩).run' [] := by
  have hdisj' : ∀ x, Reach R [] value x → ¬ Reach R [] key x := fun x hv hk => hdisj x hk hv
  rw [getStorageEntryHash_eq_fold, getStorageEntryHash_eq_fold]
  simp only [StateT.run'_eq, StateT.run_bind]
  rcases ha : (getTypeHash hash R R.types.length key).run [] with ea | ⟨k, Wk⟩ <;>
    rcases hb : (getTypeHash hash R R.types.length value).run [] with eb | ⟨v, Wv⟩
  · rw [getTypeHash_error_panic ha, getTypeHash_error_panic hb]
    rfl
  · have h := getTypeHash_after_disjoint hdisj' hb R.types.length
    rw [ha] at h
    simp only [except_ok_bind, h.eq_error]
    rfl
  · have h := getTypeHash_after_disjoint hdisj ha R.types.length
    rw [hb] at h
    simp only [except_ok_bind, h.eq_error]
    rfl
  · have hv := getTypeHash_after_disjoint hdisj ha R.types.length
    have hk := getTypeHash_after_disjoint hdisj' hb R.types.length
    rw [hb] at hv
    rw [ha] at hk
    obtain ⟨_, hv', -⟩ := hv.eq_ok
    obtain ⟨_, hk', -⟩ := hk.eq_ok
    simp [hv', hk', storageEntryFold, xor_right_comm]

/-- `u8` at id 0 and `u16` at id 1. -/
def u8AndU16 : PortableRegistry := ⟨[.primitive .u8, .primitive .u16]⟩

/-- `Map<u8, u16>` and `Map<u16, u8>` hash alike. -/
theorem getStorageEntryHash_keyValueSwap_u8u16 :
    (∀ x, Reach u8AndU16 [] 0 x → ¬ Reach u8AndU16 [] 1 x) ∧ ∀ hash : List UInt8 → Hash,
      (getStorageEntryHash hash u8AndU16
        ⟨"Account", .optional, .map [.blake2_128Concat] 0 1, [0]⟩).run' [] =
      (getStorageEntryHash hash u8AndU16
        ⟨"Account", .optional, .map [.blake2_128Concat] 1 0, [0]⟩).run' [] := by
  have hdisj : ∀ x, Reach u8AndU16 [] 0 x → ¬ Reach u8AndU16 [] 1 x := fun x h₀ h₁ => by
    have := (Reach.eq_of_children_nil (R := u8AndU16) (i := 0) rfl rfl h₀).symm.trans
      (Reach.eq_of_children_nil (R := u8AndU16) (i := 1) rfl rfl h₁)
    exact absurd this (by decide)
  exact ⟨hdisj, fun hash => getStorageEntryHash_keyValueSwap hash u8AndU16 "Account" .optional [0]
    [.blake2_128Concat] 0 1 hdisj⟩

/-- **Swapping the key and value type hashes never changes the fold**, here at two distinct
hashes, for every hash function. -/
theorem storageEntryFold_keyValueSwap : ∀ hash : List UInt8 → Hash,
    storageEntryFold hash "Account" .optional [0] (.map [.blake2_128Concat] zeroHash fun _ => 1) =
      storageEntryFold hash "Account" .optional [0] (.map [.blake2_128Concat] (fun _ => 1) zeroHash) ∧
    zeroHash ≠ fun _ => 1 :=
  fun _ => ⟨xor_right_comm _ _ _, by decide⟩

end EventListener
