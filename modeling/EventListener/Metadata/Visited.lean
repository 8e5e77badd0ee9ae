import EventListener.Metadata.Termination
import EventListener.Metadata.Occurrences

/-!
# The visited set records exactly the expanded ids

`get_type_hash` never removes an id from `visited_ids`, so one call from `(id, V)` expands each
id at most once, over the whole traversal and not only along the current path. When every id
reachable from `id` resolves, the call returns the hash of its tree of calls (`Occ`), in which
an id is expanded, its definition hashed by `get_type_def_hash`, exactly at its first occurrence
in the depth-first, left-to-right order of the calls, and every later occurrence, as every
occurrence of an id of `V`, is the sentinel `hash(&[123])`. The visited set it returns is
`new ++ V`, where `new` lists the expanded ids, newest first, without repetition: exactly the
ids reachable from `id` along references through ids outside `V`
(`getTypeHash_visited_reach`).

- `visit_ne_panic`: no panic when every reachable id resolves.
- `Walked.reach_mem`: a returning walk contains everything reachable from its start.
- `PortableRegistry.Closed`: every reference of every definition resolves; then nothing
  reachable from a resolvable id fails to resolve (`Closed.reach_resolves`).
-/

namespace EventListener

/-- A returning walk contains every id reachable from its start: the result is closed under
children outside the initial set. -/
theorem reach_mem_of_closedOver {R : PortableRegistry} {V W : Visited} {i x : TypeId}
    (hc : ClosedOver R V W) (h : Reach R V i x) (hi : i ∈ W) : x ∈ W := by
  induction h with
  | refl _ => exact hi
  | step hiV hty hj _ ih => exact ih (hc _ hi hiV _ hty _ hj)

theorem Walked.reach_mem {R : PortableRegistry} {V W : Visited} {id x : TypeId}
    (hw : Walked R V id W) (hr : Reach R V id x) : x ∈ W :=
  reach_mem_of_closedOver hw.closed hr hw.mem

theorem Reach.not_mem_right {R : PortableRegistry} {V : Visited} {i x : TypeId}
    (h : Reach R V i x) : x ∉ V := by
  induction h with
  | refl h => exact h
  | step _ _ _ _ ih => exact ih

/-- A returning walk resolved every id it reaches. -/
theorem Walked.reach_resolves {R : PortableRegistry} {V W : Visited} {id x : TypeId}
    (hw : Walked R V id W) (hr : Reach R V id x) : (R.resolve x).isSome :=
  hw.resolves x (hw.reach_mem hr) hr.not_mem_right

/-- What is reachable from `i` resolves when `W` is a closed set of resolved ids and what is
reachable from `i` around `W` resolves: a path into `W` stays in `W`. -/
theorem Reach.resolves_around {R : PortableRegistry} {W : Visited} {i x : TypeId}
    (hc : ClosedOver R [] W) (hW : ∀ z ∈ W, (R.resolve z).isSome) (h : Reach R [] i x) :
    (∀ z, Reach R W i z → (R.resolve z).isSome) → (R.resolve x).isSome := by
  induction h with
  | @refl i _ =>
    intro hi
    by_cases hiW : i ∈ W
    · exact hW i hiW
    · exact hi i (.refl hiW)
  | @step i j x ty _ hty hj hjx ih =>
    intro hi
    by_cases hiW : i ∈ W
    · exact hW x (reach_mem_of_closedOver hc (.step (List.not_mem_nil i) hty hj hjx) hiW)
    · exact ih fun z hz => hi z (.step hiW hty hj hz)

/-- **No panic when every reachable id resolves.** -/
theorem visit_ne_panic {R : PortableRegistry} :
    ∀ fuel id V, (∀ x, Reach R V id x → (R.resolve x).isSome) → visit R fuel id V ≠ .error .panic :=
  visit_ne_of (fun _ id V => ∀ x, Reach R V id x → (R.resolve x).isSome)
    (fun _ id _ hres hid hnone => by simpa [hnone] using hres id (.refl hid))
    (fun _ _ _ _ _ _ => by decide)
    (fun _ _ _ _ _ _ hres hid hty hc hX x hx =>
      hres x (.step hid hty hc (hx.mono fun v hv => hX (List.mem_cons_of_mem _ hv))))

/-- The walk returns when it has the fuel and every reachable id resolves. -/
theorem visit_ok {R : PortableRegistry} {fuel : Nat} {id : TypeId} {V : Visited}
    (hfuel : unvisited R V ≤ fuel) (hres : ∀ x, Reach R V id x → (R.resolve x).isSome) :
    ∃ W, visit R fuel id V = .ok W := by
  rcases hv : visit R fuel id V with e | W
  · cases e with
    | panic => exact absurd hv (visit_ne_panic fuel id V hres)
    | outOfFuel => exact absurd hv (visit_ne_outOfFuel fuel id V hfuel)
  · exact ⟨W, rfl⟩

/-- **`get_type_hash` expands each reachable id once, at its first occurrence**: the call
returns the hash of its tree of calls `t`, which is on `id`, follows the registry with children
left to right, and expands a call exactly when its id is not in `V` and no earlier call in
depth-first order was on it (any other call is the sentinel `hash(&[123])`, `Occ.hash`); the
visited set becomes `new ++ V`, `new` the expanded ids newest first, without repetition, and
exactly the ids reachable from `id` through ids outside `V`. -/
theorem getTypeHash_visited_reach (hash : List UInt8 → Hash) (R : PortableRegistry)
    (id : TypeId) (V : Visited) (fuel : Nat) (hfuel : unvisited R V ≤ fuel)
    (hres : ∀ x, Reach R V id x → (R.resolve x).isSome) :
    ∃ (t : Occ) (new : Visited), (getTypeHash hash R fuel id).run V = .ok (t.hash hash, new ++ V) ∧
      t.id = id ∧ t.Follows R ∧ FirstOccurrences V t.preorder ∧ new = t.expanded.reverse ∧
      new.Nodup ∧ ∀ x, x ∈ new ↔ Reach R V id x := by
  obtain ⟨W, hW⟩ := visit_ok hfuel hres
  have hw := visit_walked fuel id V W hW
  obtain ⟨new, rfl, hnd, hfr⟩ := hw.fresh
  obtain ⟨bytes, hr⟩ := getTypeHash_run_of_visit hW
  have hocc := hr
  rw [getTypeHash_eq_occurrences] at hocc
  obtain ⟨t, ht, rfl⟩ := run_map_eq_ok hocc
  obtain ⟨hid, hf, hrep⟩ := occurrences_ok fuel id V t _ ht
  obtain ⟨hnew, hfirst⟩ := replay_eq_some hrep
  refine ⟨t, new, hr, hid, hf, hfirst, List.append_cancel_right hnew, hnd,
    fun x => ⟨fun hx => hw.sound x (List.mem_append_left V hx) (hfr x hx), fun hx => ?_⟩⟩
  rcases List.mem_append.mp (hw.reach_mem hx) with h | h
  · exact h
  · exact absurd h hx.not_mem_right

/-! ## Closed registries -/

/-- Every type id referenced by a definition of the registry resolves. -/
def PortableRegistry.Closed (R : PortableRegistry) : Prop :=
  ∀ i ty, R.resolve i = some ty → ∀ c ∈ ty.children, c < R.types.length

theorem PortableRegistry.isSome_resolve {R : PortableRegistry} {i : TypeId}
    (h : i < R.types.length) : (R.resolve i).isSome := by
  simp [PortableRegistry.resolve, List.getElem?_eq_getElem h]

/-- In a closed registry, everything reachable from a resolvable id resolves. -/
theorem PortableRegistry.Closed.reach_resolves {R : PortableRegistry} (hR : R.Closed)
    {V : Visited} {i x : TypeId} (hi : i < R.types.length) (h : Reach R V i x) :
    (R.resolve x).isSome := by
  induction h with
  | refl _ => exact PortableRegistry.isSome_resolve hi
  | step _ hty hj _ ih => exact ih (hR _ _ hty _ hj)

theorem selfReferential_closed : selfReferential.Closed := by
  intro i ty h c hc
  rcases i with _ | i
  · cases h
    simp only [TypeDef.children, List.map_cons, List.map_nil, List.mem_singleton] at hc
    simp [hc, selfReferential]
  · simp [PortableRegistry.resolve, selfReferential] at h

/-- The self-referential composite, hashed from an empty visited set. -/
theorem getTypeHash_visited_reach_selfReferential : unvisited selfReferential [] ≤ 1 ∧
    (∀ x, Reach selfReferential [] 0 x → (selfReferential.resolve x).isSome) ∧
    ∀ hash : List UInt8 → Hash, ∃ (t : Occ) (new : Visited),
      (getTypeHash hash selfReferential 1 0).run [] = .ok (t.hash hash, new ++ []) ∧
      t.id = 0 ∧ t.Follows selfReferential ∧ FirstOccurrences [] t.preorder ∧
      new = t.expanded.reverse ∧ new.Nodup ∧ ∀ x, x ∈ new ↔ Reach selfReferential [] 0 x := by
  have hfuel : unvisited selfReferential [] ≤ 1 := by decide
  have hres : ∀ x, Reach selfReferential [] 0 x → (selfReferential.resolve x).isSome :=
    fun _ hx => selfReferential_closed.reach_resolves (by decide) hx
  exact ⟨hfuel, hres, fun hash => getTypeHash_visited_reach hash _ 0 [] 1 hfuel hres⟩

end EventListener
