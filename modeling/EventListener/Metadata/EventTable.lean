import EventListener.Metadata.MetadataType
import Mathlib.Data.List.Nodup

/-!
# What `Metadata::try_from` accepts and what `Metadata::event` finds

`try_from` succeeds exactly when the prefix is `META_RESERVED`, the version is V14 and every
event-declaring pallet's event type resolves to a variant type (`tryFrom_eq_ok`). The event map
it builds is the fold of `HashMap::insert` over `declaredEvents`, the `(key, EventMetadata)`
pairs in pallet order then variant order, so a lookup finds the *last* declared pair with the
key (`tryFrom_event`): a later pallet or variant with the same `(pallet index, variant index)`
silently replaces an earlier one, and only when the declared keys are distinct does every
declared event come back as itself.

When it fails, the error names the first check that failed: the prefix, then the version, then
the event type of the first bad pallet in order, by its type id (`tryFrom_eq_error`).
-/

namespace EventListener

/-- A pallet whose event type, if it declares one, resolves to a variant type. -/
def PalletEventOk (meta : RuntimeMetadataV14) (pallet : PalletMetadata) : Prop :=
  ∀ ty, pallet.event = some ty → ∃ variants, meta.types.resolve ty = some (.variant variants)

/-- The `(key, EventMetadata)` pairs `try_from` inserts for one pallet, in order. -/
def palletEvents (meta : RuntimeMetadataV14) (pallet : PalletMetadata) :
    List ((UInt8 × UInt8) × EventMetadata) :=
  match pallet.event.map (getTypeDefVariant meta.types) with
  | some (.ok variants) =>
    variants.map fun v => ((pallet.index, v.index), eventMetadataOf pallet v)
  | _ => []

/-- All the pairs `try_from` inserts, in insertion order. -/
def declaredEvents (meta : RuntimeMetadataV14) : List ((UInt8 × UInt8) × EventMetadata) :=
  meta.pallets.flatMap (palletEvents meta)

/-- The value of the last pair with the given key. -/
def lastDeclared (l : List ((UInt8 × UInt8) × EventMetadata)) (key : UInt8 × UInt8) :
    Option EventMetadata :=
  (l.reverse.find? fun e => e.1 == key).map (·.2)

section Fold

theorem except_map_eq_ok {ε α β : Type} {f : α → β} {x : Except ε α} {b : β} :
    f <$> x = .ok b ↔ ∃ a, x = .ok a ∧ f a = b := by
  cases x <;> simp [Except.ok.injEq]

/-- Inserting a list of pairs: a key maps to its last pair, or to what it mapped to before. -/
theorem foldl_insertEvent (key : UInt8 × UInt8) :
    ∀ (l : List ((UInt8 × UInt8) × EventMetadata)) (m : UInt8 × UInt8 → Option EventMetadata),
      l.foldl (fun m e => insertEvent m e.1 e.2) m key = (lastDeclared l key).or (m key)
  | [], _ => rfl
  | e :: l, m => by
    rw [List.foldl_cons, foldl_insertEvent key l]
    by_cases he : key = e.1
    · simp [lastDeclared, List.find?_append, insertEvent, he]
      cases List.find? (fun x => x.1 == e.1) l.reverse <;> rfl
    · simp [lastDeclared, List.find?_append, insertEvent, he, Ne.symm he]

theorem getTypeDefVariant_eq_ok {types : PortableRegistry} {ty : TypeId} {vs : List Variant} :
    getTypeDefVariant types ty = .ok vs ↔ types.resolve ty = some (.variant vs) := by
  unfold getTypeDefVariant
  split <;> simp_all

theorem except_map_eq_error {ε α β : Type} {f : α → β} {x : Except ε α} {e : ε} :
    f <$> x = .error e ↔ x = .error e := by
  cases x <;> simp

theorem getTypeDefVariant_eq_error {types : PortableRegistry} {ty : TypeId}
    {e : InvalidMetadataError} :
    getTypeDefVariant types ty = .error e ↔
      types.resolve ty = none ∧ e = .missingType ty ∨
        (∃ d, types.resolve ty = some d ∧ ∀ vs, d ≠ .variant vs) ∧ e = .typeDefNotVariant ty := by
  unfold getTypeDefVariant
  rcases types.resolve ty with _ | d
  · simp [eq_comm]
  · cases d <;> simp [eq_comm]

theorem getTypeDefVariant_isOk {types : PortableRegistry} {ty : TypeId} :
    (∃ vs, getTypeDefVariant types ty = .ok vs) ↔ ∃ vs, types.resolve ty = some (.variant vs) := by
  simp only [getTypeDefVariant_eq_ok]

/-- The event map after inserting a list of pairs. -/
def insertAll (l : List ((UInt8 × UInt8) × EventMetadata))
    (m : UInt8 × UInt8 → Option EventMetadata) : UInt8 × UInt8 → Option EventMetadata :=
  l.foldl (fun m e => insertEvent m e.1 e.2) m

theorem palletStep_eq_ok {meta : RuntimeMetadataV14} {m m' : UInt8 × UInt8 → Option EventMetadata}
    {pallet : PalletMetadata} :
    palletStep meta m pallet = .ok m' ↔
      PalletEventOk meta pallet ∧ m' = insertAll (palletEvents meta pallet) m := by
  unfold palletStep palletEvents PalletEventOk
  rcases hev : pallet.event with _ | ty
  · simp only [Option.map_none', reduceCtorEq, false_implies, implies_true, true_and]
    exact ⟨fun h => (Except.ok.inj h).symm, fun h => h ▸ rfl⟩
  · simp only [Option.map_some', Option.some.injEq, forall_eq', ← getTypeDefVariant_isOk]
    rcases getTypeDefVariant meta.types ty with e | vs
    · simp only [except_map_error, reduceCtorEq, false_iff]
      exact fun ⟨⟨_, h⟩, _⟩ => h.elim
    · simp only [except_map_ok, Except.ok.injEq, insertPalletEvents, insertAll, List.foldl_map]
      exact ⟨fun h => ⟨⟨vs, rfl⟩, h.symm⟩, fun h => h.2.symm⟩

theorem foldlM_palletStep_eq_ok (meta : RuntimeMetadataV14) :
    ∀ (pallets : List PalletMetadata) (m events : UInt8 × UInt8 → Option EventMetadata),
      pallets.foldlM (palletStep meta) m = .ok events ↔
        (∀ p ∈ pallets, PalletEventOk meta p) ∧
          events = insertAll (pallets.flatMap (palletEvents meta)) m
  | [], m, events => by
    simp only [List.foldlM_nil, List.not_mem_nil, false_implies, implies_true, true_and,
      List.flatMap_nil, insertAll, List.foldl_nil]
    exact ⟨fun h => (Except.ok.inj h).symm, fun h => h ▸ rfl⟩
  | p :: pallets, m, events => by
    rw [List.foldlM_cons]
    rcases hp : palletStep meta m p with e | m'
    · have : ¬ PalletEventOk meta p := fun hok => by
        have : palletStep meta m p = .ok (insertAll (palletEvents meta p) m) :=
          palletStep_eq_ok.mpr ⟨hok, rfl⟩
        rw [hp] at this
        exact Except.noConfusion this
      simp only [except_error_bind, reduceCtorEq, false_iff, List.mem_cons, forall_eq_or_imp]
      exact fun h => this h.1.1
    · obtain ⟨hok, rfl⟩ := palletStep_eq_ok.mp hp
      simp only [except_ok_bind, foldlM_palletStep_eq_ok meta pallets, List.mem_cons,
        forall_eq_or_imp, hok, true_and, List.flatMap_cons, insertAll, List.foldl_append]

theorem palletStep_eq_error {meta : RuntimeMetadataV14} {m : UInt8 × UInt8 → Option EventMetadata}
    {pallet : PalletMetadata} {e : InvalidMetadataError} :
    palletStep meta m pallet = .error e ↔
      ∃ ty, pallet.event = some ty ∧ getTypeDefVariant meta.types ty = .error e := by
  unfold palletStep
  rcases pallet.event with _ | ty
  · simp [pure, Except.pure]
  · simp [except_map_eq_error]

theorem PalletEventOk.getTypeDefVariant_ne_error {meta : RuntimeMetadataV14}
    {pallet : PalletMetadata} {ty : TypeId} {e : InvalidMetadataError}
    (hok : PalletEventOk meta pallet) (hev : pallet.event = some ty) :
    getTypeDefVariant meta.types ty ≠ .error e := fun h => by
  obtain ⟨vs, hvs⟩ := hok ty hev
  rw [getTypeDefVariant_eq_ok.mpr hvs] at h
  exact Except.noConfusion h

/-- The loop stops at the first pallet, in order, whose event type is bad, with its error. -/
theorem foldlM_palletStep_eq_error (meta : RuntimeMetadataV14) (e : InvalidMetadataError) :
    ∀ (pallets : List PalletMetadata) (m : UInt8 × UInt8 → Option EventMetadata),
      pallets.foldlM (palletStep meta) m = .error e ↔
        ∃ pre p post ty, pallets = pre ++ p :: post ∧ (∀ q ∈ pre, PalletEventOk meta q) ∧
          p.event = some ty ∧ getTypeDefVariant meta.types ty = .error e
  | [], m => by simp [pure, Except.pure]
  | p :: pallets, m => by
    rw [List.foldlM_cons]
    simp only [List.cons_eq_append_iff]
    rcases hp : palletStep meta m p with e' | m'
    · obtain ⟨ty, hev, hty⟩ := palletStep_eq_error.mp hp
      simp only [except_error_bind, Except.error.injEq]
      constructor
      · rintro rfl
        exact ⟨[], p, pallets, ty, .inl ⟨rfl, rfl⟩, by simp, hev, hty⟩
      · rintro ⟨pre, q, post, ty', ⟨rfl, hq⟩ | ⟨pre', rfl, -⟩, hpre, hev', hty'⟩
        · obtain ⟨rfl, rfl⟩ := List.cons.inj hq
          cases hev.symm.trans hev'
          exact Except.error.inj (hty.symm.trans hty')
        · exact absurd hty ((hpre p (List.mem_cons_self p pre')).getTypeDefVariant_ne_error hev)
    · obtain ⟨hok, -⟩ := palletStep_eq_ok.mp hp
      simp only [except_ok_bind, foldlM_palletStep_eq_error meta e pallets m']
      constructor
      · rintro ⟨pre, q, post, ty, rfl, hpre, hev, hty⟩
        exact ⟨p :: pre, q, post, ty, .inr ⟨pre, rfl, rfl⟩, List.forall_mem_cons.mpr ⟨hok, hpre⟩,
          hev, hty⟩
      · rintro ⟨pre, q, post, ty, ⟨rfl, hq⟩ | ⟨pre', rfl, rfl⟩, hpre, hev, hty⟩
        · obtain ⟨rfl, rfl⟩ := List.cons.inj hq
          exact absurd hty (hok.getTypeDefVariant_ne_error hev)
        · exact ⟨pre', q, post, ty, rfl, fun x hx => hpre x (List.mem_cons_of_mem p hx), hev, hty⟩

end Fold

/-- The last pair with a key is its only one when the keys are distinct. -/
theorem lastDeclared_eq_of_nodup {l : List ((UInt8 × UInt8) × EventMetadata)}
    {key : UInt8 × UInt8} {e : EventMetadata} (hnd : (l.map (·.1)).Nodup) (hmem : (key, e) ∈ l) :
    lastDeclared l key = some e := by
  rcases hf : l.reverse.find? (fun x => x.1 == key) with _ | x
  · exact absurd (List.find?_eq_none.mp hf (key, e) (List.mem_reverse.mpr hmem)) (by simp)
  · have hx : x ∈ l := List.mem_reverse.mp (List.mem_of_find?_eq_some hf)
    have hkey : x.1 = key := by simpa using List.find?_some hf
    simp [lastDeclared, hf, List.inj_on_of_nodup_map hnd hx hmem hkey]

theorem mem_declaredEvents {meta : RuntimeMetadataV14} {p : PalletMetadata} {ty : TypeId}
    {variants : List Variant} {v : Variant} (hp : p ∈ meta.pallets) (hev : p.event = some ty)
    (hty : meta.types.resolve ty = some (.variant variants)) (hv : v ∈ variants) :
    ((p.index, v.index), eventMetadataOf p v) ∈ declaredEvents meta := by
  refine List.mem_flatMap.mpr ⟨p, hp, ?_⟩
  rw [palletEvents, hev, Option.map_some', getTypeDefVariant_eq_ok.mpr hty]
  exact List.mem_map_of_mem _ hv

theorem buildEvents_eq_ok {meta : RuntimeMetadataV14} {events : UInt8 × UInt8 → Option EventMetadata} :
    buildEvents meta = .ok events ↔
      (∀ p ∈ meta.pallets, PalletEventOk meta p) ∧
        events = insertAll (declaredEvents meta) fun _ => none :=
  foldlM_palletStep_eq_ok meta meta.pallets _ events

theorem tryFrom_eq_ok {m : RuntimeMetadataPrefixed} {md : Metadata} :
    Metadata.tryFrom m = .ok md ↔ m.magic = META_RESERVED ∧ ∃ meta,
      m.metadata = .v14 meta ∧ (∀ p ∈ meta.pallets, PalletEventOk meta p) ∧
      md = ⟨meta, insertAll (declaredEvents meta) fun _ => none, HashCache.empty⟩ := by
  unfold Metadata.tryFrom
  by_cases hmagic : m.magic = META_RESERVED
  · simp only [hmagic, ne_eq, not_true_eq_false, if_false, true_and]
    rcases m.metadata with meta | _
    · rw [except_map_eq_ok]
      simp only [buildEvents_eq_ok, RuntimeMetadata.v14.injEq, exists_eq_left']
      constructor
      · rintro ⟨_, ⟨hok, rfl⟩, rfl⟩
        exact ⟨hok, rfl⟩
      · rintro ⟨hok, rfl⟩
        exact ⟨_, ⟨hok, rfl⟩, rfl⟩
    · simp
  · simp [hmagic]

/-- **What `try_from` accepts and what `event` finds.** `try_from` is `Ok` exactly when the
prefix is `META_RESERVED`, the version is V14 and every declared event type resolves to a
variant type. Then `event(i, j)` is the metadata of the last declared `(pallet, variant)` pair
with indices `(i, j)`, or `EventNotFound(i, j)` if there is none; when the declared index pairs
are distinct, every variant `v` of a pallet `p`'s event enum is found as itself. -/
theorem tryFrom_event (m : RuntimeMetadataPrefixed) :
    ((∃ md, Metadata.tryFrom m = .ok md) ↔ m.magic = META_RESERVED ∧
      ∃ meta, m.metadata = .v14 meta ∧ ∀ p ∈ meta.pallets, PalletEventOk meta p) ∧
    ∀ md, Metadata.tryFrom m = .ok md →
      (∀ i j, md.event i j = match lastDeclared (declaredEvents md.metadata) (i, j) with
        | some e => .ok e
        | none => .error (.eventNotFound i j)) ∧
      (((declaredEvents md.metadata).map (·.1)).Nodup →
        ∀ p ∈ md.metadata.pallets, ∀ ty variants, p.event = some ty →
          md.metadata.types.resolve ty = some (.variant variants) →
          ∀ v ∈ variants, md.event p.index v.index = .ok (eventMetadataOf p v)) := by
  refine ⟨⟨fun ⟨md, h⟩ => ?_, fun ⟨hmagic, meta, hm, hok⟩ => ⟨_, tryFrom_eq_ok.mpr
    ⟨hmagic, meta, hm, hok, rfl⟩⟩⟩, fun md h => ?_⟩
  · obtain ⟨hmagic, meta, hm, hok, -⟩ := tryFrom_eq_ok.mp h
    exact ⟨hmagic, meta, hm, hok⟩
  · obtain ⟨-, meta, -, -, rfl⟩ := tryFrom_eq_ok.mp h
    have hlookup : ∀ i j, Metadata.event ⟨meta, insertAll (declaredEvents meta) fun _ => none,
        HashCache.empty⟩ i j = match lastDeclared (declaredEvents meta) (i, j) with
          | some e => .ok e
          | none => .error (.eventNotFound i j) := fun i j => by
      cases hl : lastDeclared (declaredEvents meta) (i, j) <;>
        simp [Metadata.event, insertAll, foldl_insertEvent, hl]
    refine ⟨hlookup, fun hnd p hp ty variants hev hty v hv => ?_⟩
    rw [hlookup, lastDeclared_eq_of_nodup hnd (mem_declaredEvents hp hev hty hv)]

/-- One pallet, `Balances` at index 5, whose event enum has `Transfer` at index 0 and
`Deposit` at index 1. -/
def balancesEvents : RuntimeMetadataPrefixed :=
  ⟨META_RESERVED, .v14 ⟨⟨[.variant [⟨"Transfer", [⟨some "amount", 1⟩], 0, ["A transfer."]⟩,
    ⟨"Deposit", [], 1, []⟩], .primitive .u128]⟩, [⟨"Balances", none, some 0, 5⟩]⟩⟩

theorem tryFrom_event_balances : ∃ md, Metadata.tryFrom balancesEvents = .ok md ∧
    md.event 5 0 = .ok ⟨"Balances", "Transfer", [(some "amount", 1)], ["A transfer."]⟩ ∧
    md.event 5 2 = .error (.eventNotFound 5 2) := by
  have h := (tryFrom_event balancesEvents).2 _ rfl
  refine ⟨_, rfl, h.2 (by decide) _ (List.mem_singleton_self _) 0 _ rfl rfl _
    (List.mem_cons_self _ _), ?_⟩
  rw [h.1]
  rfl

/-- Two pallets, both of index 0, whose event enums (one shared type) have one variant of
index 0. -/
def twoPalletsOneIndex : RuntimeMetadataPrefixed :=
  ⟨META_RESERVED, .v14 ⟨⟨[.variant [⟨"Transfer", [], 0, []⟩]]⟩,
    [⟨"Balances", none, some 0, 0⟩, ⟨"Assets", none, some 0, 0⟩]⟩⟩

/-- The later pallet's event replaces the earlier one's: `event(0, 0)` is `Assets::Transfer`,
so `Balances::Transfer`, declared at the same indices, is not found as itself. -/
theorem tryFrom_event_replaced :
    ∃ md, Metadata.tryFrom twoPalletsOneIndex = .ok md ∧
      md.event 0 0 = .ok ⟨"Assets", "Transfer", [], []⟩ ∧
      (⟨"Assets", "Transfer", [], []⟩ : EventMetadata) ≠
        eventMetadataOf ⟨"Balances", none, some 0, 0⟩ ⟨"Transfer", [], 0, []⟩ :=
  ⟨_, rfl, rfl, by decide⟩

/-! ## Which error `try_from` returns -/

/-- **`try_from` reports the first check that fails**: `InvalidPrefix` for a wrong magic
number; else `InvalidVersion` for a version other than V14; else the error of the first pallet,
in order, whose event type is bad: `MissingType(id)` when the registry lacks the id and
`TypeDefNotVariant(id)` when its type is not a variant type. -/
theorem tryFrom_eq_error (m : RuntimeMetadataPrefixed) (e : InvalidMetadataError) :
    Metadata.tryFrom m = .error e ↔
      m.magic ≠ META_RESERVED ∧ e = .invalidPrefix ∨
      m.magic = META_RESERVED ∧ ((∃ v, m.metadata = .other v) ∧ e = .invalidVersion ∨
        ∃ meta pre p post ty, m.metadata = .v14 meta ∧ meta.pallets = pre ++ p :: post ∧
          (∀ q ∈ pre, PalletEventOk meta q) ∧ p.event = some ty ∧
          (meta.types.resolve ty = none ∧ e = .missingType ty ∨
            (∃ d, meta.types.resolve ty = some d ∧ ∀ vs, d ≠ .variant vs) ∧
              e = .typeDefNotVariant ty)) := by
  unfold Metadata.tryFrom
  by_cases hmagic : m.magic = META_RESERVED
  · simp only [hmagic, ne_eq, not_true_eq_false, if_false, false_and, false_or, true_and]
    rcases m.metadata with meta | v
    · simp only [except_map_eq_error, buildEvents, foldlM_palletStep_eq_error,
        ← getTypeDefVariant_eq_error, RuntimeMetadata.v14.injEq, exists_and_left, exists_eq_left',
        reduceCtorEq, exists_false, false_and, false_or]
    · simp [eq_comm]
  · simp [hmagic, eq_comm]

end EventListener
