import EventListener.Metadata.TypeHash

/-!
# The calls of one `get_type_hash` call

One call of `get_type_hash` makes a tree of calls: an id already in `visited_ids` is answered
with the sentinel `hash(&[123])` and makes no call; any other id is inserted, and its definition
is hashed from the calls on its children, left to right. `Occ` is that tree, and `occurrences`
is the traversal of `get_type_hash` recording it in place of hashing.

- `getTypeHash_eq_occurrences`: `get_type_hash` returns the hash of the tree its traversal
  records, `Occ.hash`: the sentinel at every call that does not expand, `get_type_def_hash`
  replayed on the children's hashes at every expanded id (`typeDefHashOf`).
- `occurrences_ok`: the tree follows the registry (`Occ.Follows`: an expanded id resolves and
  its calls are on the definition's children in order), and its calls, in the order they are
  made (`Occ.preorder`), replay on the visited set (`replay`): each call expands exactly when
  its id is not yet visited.
- `replay_eq_some`: a replay that succeeds says, without a visited set, that a call expands
  exactly at the first call on its id, unless the id was visited before (`FirstOccurrences`),
  and that the visited set gains the expanded ids in the order they are expanded.
-/

namespace EventListener

/-- One call of `get_type_hash` in a traversal: on an id met again, answered with the sentinel,
or on an id expanded with its definition and the calls on the definition's children. -/
inductive Occ where
  | sentinel (id : TypeId)
  | expand (id : TypeId) (ty : TypeDef) (children : List Occ)

/-- The id a call is made on. -/
def Occ.id : Occ → TypeId
  | .sentinel id => id
  | .expand id _ _ => id

mutual

/-- What a call returns: the sentinel, or its definition's hash replayed on what the calls on
its children return. -/
def Occ.hash (hash : List UInt8 → Hash) : Occ → Hash
  | .sentinel _ => hash [123]
  | .expand _ ty cs => typeDefHashOf hash ty (Occ.hashes hash cs)

/-- What a list of calls returns, in order. -/
def Occ.hashes (hash : List UInt8 → Hash) : List Occ → List Hash
  | [] => []
  | c :: cs => c.hash hash :: Occ.hashes hash cs

end

mutual

/-- The calls in the order they are made, depth first and children left to right, each with
whether it expanded its id. -/
def Occ.preorder : Occ → List (TypeId × Bool)
  | .sentinel id => [(id, false)]
  | .expand id _ cs => (id, true) :: Occ.preorders cs

/-- The calls of a list of trees, one tree after the other. -/
def Occ.preorders : List Occ → List (TypeId × Bool)
  | [] => []
  | c :: cs => c.preorder ++ Occ.preorders cs

end

/-- The ids a traversal expands, in the order it expands them. -/
def Occ.expanded (t : Occ) : List TypeId := (t.preorder.filter (·.2)).map (·.1)

/-- The tree follows the registry: an expanded id resolves to the definition it records, whose
children are the ids of its calls, in order. -/
inductive Occ.Follows (R : PortableRegistry) : Occ → Prop
  | sentinel (id : TypeId) : Occ.Follows R (.sentinel id)
  | expand {id : TypeId} {ty : TypeDef} {cs : List Occ} : R.resolve id = some ty →
      cs.map Occ.id = ty.children → (∀ c ∈ cs, Occ.Follows R c) → Occ.Follows R (.expand id ty cs)

/-- In the calls `P`, in the order they are made, a call expands its id exactly when the id is
not in `V` and no earlier call was on it. -/
def FirstOccurrences (V : Visited) (P : List (TypeId × Bool)) : Prop :=
  ∀ pre y b post, P = pre ++ (y, b) :: post → (b = true ↔ y ∉ V ∧ ∀ z ∈ pre, z.1 ≠ y)

/-- The body of `get_type_hash` recording its call: a sentinel for an id already visited;
otherwise the id is inserted, resolved (a panic on an id the registry does not hold) and the
calls on its definition recorded by `expand`. -/
def occurrenceStep (R : PortableRegistry) (expand : TypeId → TypeDef → HashM Occ) (id : TypeId) :
    HashM Occ := fun visited =>
  if id ∈ visited then pure (.sentinel id, visited)
  else match R.resolve id with
    | none => throw .panic
    | some ty => expand id ty (id :: visited)

/-- `get_type_hash`'s traversal recording its calls: `getTypeHash` with the tree in place of
the hash. -/
def occurrences (R : PortableRegistry) : Nat → TypeId → HashM Occ
  | 0 => occurrenceStep R fun _ _ _ => throw .outOfFuel
  | n + 1 => occurrenceStep R fun id ty => Occ.expand id ty <$> ty.children.mapM (occurrences R n)

/-! ## The hash is the hash of the recorded tree -/

theorem Occ.hashes_eq_map (hash : List UInt8 → Hash) :
    ∀ cs : List Occ, Occ.hashes hash cs = cs.map (Occ.hash hash)
  | [] => rfl
  | _ :: cs => congrArg _ (Occ.hashes_eq_map hash cs)

theorem mapM_map_comm {m : Type → Type} [Monad m] [LawfulMonad m] {α β γ : Type} (f : β → γ)
    (g : α → m β) : ∀ l : List α, l.mapM (fun a => f <$> g a) = List.map f <$> l.mapM g
  | [] => by simp only [List.mapM_nil, map_pure, List.map_nil]
  | a :: l => by
    simp only [List.mapM_cons, mapM_map_comm f g l, map_bind, bind_map_left, map_pure,
      List.map_cons]

/-- A step hashes what the recording step records, when its definitions do. -/
theorem typeHashStep_eq_map (hash : List UInt8 → Hash) {R : PortableRegistry}
    {hashDef : TypeDef → HashM Hash} {expand : TypeId → TypeDef → HashM Occ}
    (hdef : ∀ id ty, hashDef ty = Occ.hash hash <$> expand id ty) (id : TypeId) :
    typeHashStep hash R hashDef id = Occ.hash hash <$> occurrenceStep R expand id :=
  funext fun V => by
    show _ = (Occ.hash hash <$> occurrenceStep R expand id).run V
    rw [StateT.run_map]
    by_cases hid : id ∈ V
    · simp only [typeHashStep, occurrenceStep, StateT.run, hid, if_true]
      rfl
    · simp only [typeHashStep, occurrenceStep, StateT.run, hid, if_false]
      rcases R.resolve id with _ | ty
      · rfl
      · exact (congrFun (hdef id ty) (id :: V)).trans (StateT.run_map _ _ _)

/-- **`get_type_hash` returns the hash of the tree of calls its traversal makes**, and leaves
the visited set that traversal leaves, or stops as it stops. -/
theorem getTypeHash_eq_occurrences (hash : List UInt8 → Hash) (R : PortableRegistry) :
    ∀ fuel id, getTypeHash hash R fuel id = Occ.hash hash <$> occurrences R fuel id
  | 0, id => typeHashStep_eq_map hash (fun _ _ => by rfl) id
  | n + 1, id => typeHashStep_eq_map hash (fun id ty => by
      rw [getTypeDefHash_eq_mapM, funext (getTypeHash_eq_occurrences hash R n), mapM_map_comm,
        Functor.map_map, Functor.map_map]
      simp only [Function.comp_def, Occ.hash, Occ.hashes_eq_map]) id

/-! ## What the recorded calls satisfy -/

/-- Replaying calls on a visited set: each call expands exactly when its id is not yet
visited, and expanding it visits it. -/
def replay : Visited → List (TypeId × Bool) → Option Visited
  | V, [] => some V
  | V, (y, b) :: P => if b = decide (y ∉ V) then replay (if b then y :: V else V) P else none

theorem replay_append : ∀ (V : Visited) (P Q : List (TypeId × Bool)),
    replay V (P ++ Q) = (replay V P).bind fun W => replay W Q
  | _, [], _ => rfl
  | V, (y, b) :: P, Q => by
    simp only [List.cons_append, replay]
    by_cases hb : b = decide (y ∉ V)
    · rw [if_pos hb, if_pos hb]
      exact replay_append _ P Q
    · rw [if_neg hb, if_neg hb]
      rfl

theorem run_bind_eq_ok {α β : Type} {m : HashM α} {f : α → HashM β} {X W : Visited} {b : β} :
    (m >>= f).run X = .ok (b, W) → ∃ a Y, m.run X = .ok (a, Y) ∧ (f a).run Y = .ok (b, W) := by
  rw [StateT.run_bind]
  rcases m.run X with _ | ⟨a, Y⟩
  · exact fun h => nomatch h
  · exact fun h => ⟨a, Y, rfl, h⟩

theorem run_map_eq_ok {α β : Type} {m : HashM α} {f : α → β} {X W : Visited} {b : β} :
    (f <$> m).run X = .ok (b, W) → ∃ a, m.run X = .ok (a, W) ∧ b = f a := by
  rw [StateT.run_map]
  rcases m.run X with _ | ⟨a, Y⟩
  · exact fun h => nomatch h
  · intro h
    cases h
    exact ⟨a, rfl, rfl⟩

/-- What one recorded call satisfies: it is on its id, follows the registry, and replays. -/
def OccOk (R : PortableRegistry) (id : TypeId) (X : Visited) (t : Occ) (W : Visited) : Prop :=
  t.id = id ∧ t.Follows R ∧ replay X t.preorder = some W

section Recorded

variable {R : PortableRegistry} {n : Nat}

/-- The calls on a list of children, made in order, each satisfying `OccOk`. -/
theorem mapM_occurrences_ok
    (ih : ∀ id X t W, (occurrences R n id).run X = .ok (t, W) → OccOk R id X t W) :
    ∀ (cs : List TypeId) (X : Visited) (ts : List Occ) (W : Visited),
      (cs.mapM (occurrences R n)).run X = .ok (ts, W) →
        ts.map Occ.id = cs ∧ (∀ t ∈ ts, t.Follows R) ∧ replay X (Occ.preorders ts) = some W
  | [], X, ts, W, h => by
    rw [List.mapM_nil] at h
    cases h
    exact ⟨rfl, by simp, rfl⟩
  | _ :: cs, X, ts, W, h => by
    rw [List.mapM_cons] at h
    obtain ⟨t, Y, ht, h⟩ := run_bind_eq_ok h
    obtain ⟨ts', W', hts, h⟩ := run_bind_eq_ok h
    cases h
    obtain ⟨hid, hf, hr⟩ := ih _ X t Y ht
    obtain ⟨hids, hfs, hrs⟩ := mapM_occurrences_ok ih cs Y ts' W hts
    refine ⟨by simp [hid, hids], ?_, ?_⟩
    · simpa [hf] using hfs
    · rw [Occ.preorders, replay_append, hr]
      exact hrs

end Recorded

/-- What a returning step did: it answered a visited id with the sentinel, or inserted a fresh
id that resolves and expanded it. -/
theorem occurrenceStep_eq_ok {R : PortableRegistry} {expand : TypeId → TypeDef → HashM Occ}
    {id : TypeId} {X W : Visited} {t : Occ} (h : (occurrenceStep R expand id).run X = .ok (t, W)) :
    id ∈ X ∧ t = .sentinel id ∧ W = X ∨
      id ∉ X ∧ ∃ ty, R.resolve id = some ty ∧ (expand id ty).run (id :: X) = .ok (t, W) := by
  by_cases hid : id ∈ X
  · simp only [occurrenceStep, StateT.run, hid, if_true] at h
    cases h
    exact .inl ⟨hid, rfl, rfl⟩
  · simp only [occurrenceStep, StateT.run, hid, if_false] at h
    rcases hty : R.resolve id with _ | ty <;> rw [hty] at h
    · cases h
    · exact .inr ⟨hid, ty, rfl, h⟩

/-- **Every returning traversal records a tree that follows the registry and replays on the
visited set.** -/
theorem occurrences_ok {R : PortableRegistry} :
    ∀ fuel id X t W, (occurrences R fuel id).run X = .ok (t, W) → OccOk R id X t W
  | 0, id, X, t, W, h => by
    rcases occurrenceStep_eq_ok h with ⟨hid, rfl, rfl⟩ | ⟨-, -, -, h⟩
    · exact ⟨rfl, .sentinel id, by simp [Occ.preorder, replay, hid]⟩
    · cases h
  | n + 1, id, X, t, W, h => by
    rcases occurrenceStep_eq_ok h with ⟨hid, rfl, rfl⟩ | ⟨hid, ty, hty, h⟩
    · exact ⟨rfl, .sentinel id, by simp [Occ.preorder, replay, hid]⟩
    · obtain ⟨ts, hts, rfl⟩ := run_map_eq_ok h
      obtain ⟨hids, hfs, hr⟩ := mapM_occurrences_ok (occurrences_ok n) _ _ _ _ hts
      exact ⟨rfl, .expand hty hids hfs, by simp [Occ.preorder, replay, hid, hr]⟩

theorem replay_cons {V W : Visited} {y : TypeId} {b : Bool} {P : List (TypeId × Bool)}
    (h : replay V ((y, b) :: P) = some W) :
    (b = true ↔ y ∉ V) ∧ replay (if b then y :: V else V) P = some W := by
  simp only [replay] at h
  by_cases hb : b = decide (y ∉ V)
  · rw [if_pos hb] at h
    exact ⟨by simp [hb], h⟩
  · rw [if_neg hb] at h
    cases h

/-- A first call that expands exactly when its id is not visited, followed by calls that are
first occurrences on the visited set it leaves. -/
theorem FirstOccurrences.cons {V : Visited} {y : TypeId} {b : Bool} {P : List (TypeId × Bool)}
    (hb : b = true ↔ y ∉ V) (h : FirstOccurrences (if b then y :: V else V) P) :
    FirstOccurrences V ((y, b) :: P) := fun pre y' b' post hP => by
  have hstep : ∀ z, z ∉ (if b then y :: V else V) ↔ z ∉ V ∧ y ≠ z := fun z => by
    cases b
    · have hyV : y ∈ V := by simpa using hb
      exact ⟨fun hz => ⟨hz, fun h => hz (h ▸ hyV)⟩, fun hz => hz.1⟩
    · simp only [if_true, List.mem_cons, not_or]
      exact ⟨fun hz => ⟨hz.2, Ne.symm hz.1⟩, fun hz => ⟨Ne.symm hz.2, hz.1⟩⟩
  rcases pre with _ | ⟨z, pre⟩
  · simp only [List.nil_append, List.cons.injEq, Prod.mk.injEq] at hP
    obtain ⟨⟨rfl, rfl⟩, -⟩ := hP
    simpa using hb
  · simp only [List.cons_append, List.cons.injEq] at hP
    obtain ⟨rfl, hP⟩ := hP
    rw [h pre y' b' post hP, hstep]
    simp only [List.mem_cons, forall_eq_or_imp, and_assoc]

/-- **A successful replay, said without a visited set**: the visited set gains the expanded
ids, newest first, and a call expands exactly when its id is not in `V` and no earlier call was
on it. -/
theorem replay_eq_some {V W : Visited} : ∀ {P : List (TypeId × Bool)}, replay V P = some W →
    W = ((P.filter (·.2)).map (·.1)).reverse ++ V ∧ FirstOccurrences V P
  | [], h => by
    cases h
    refine ⟨rfl, fun pre y b post hP => ?_⟩
    simp at hP
  | (y, b) :: P, h => by
    obtain ⟨hb, h⟩ := replay_cons h
    obtain ⟨hW, hfirst⟩ := replay_eq_some h
    refine ⟨?_, hfirst.cons hb⟩
    cases b <;> simp [hW]

end EventListener
