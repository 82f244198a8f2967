import ClassDiagram.Dump.Interfaces
import Mathlib.Data.List.Basic

/-! The interfaces that a type has in the end are a closure: they are the least set with the
direct interfaces, the interfaces of the types along the chain of bases, and with each known
type the interfaces of that type. Cycles do no harm, since neither the walk along the bases
nor the walk along the interfaces leaves out what it would meet on a second visit. -/

namespace ClassDiagram.Dump

/-- The entries that are met when bases are followed. The root type and types that are not
known end the chain. -/
inductive OnChain (index : Index) : Option TypeRef → Entry → Prop
  | here {id : String} {e : Entry} :
      index.entry? id = some e → OnChain index (some ⟨some id, false⟩) e
  | above {id : String} {e e' : Entry} :
      index.entry? id = some e → OnChain index e.base e' →
      OnChain index (some ⟨some id, false⟩) e'

/-- What a type with a base and direct interfaces realizes. -/
inductive Realized (index : Index) (base : Option TypeRef) (direct : List TypeRef) :
    String → Prop
  | own {ref : TypeRef} {id : String} :
      ref ∈ direct → ref.id = some id → Realized index base direct id
  | inherited {e : Entry} {ref : TypeRef} {id : String} :
      OnChain index base e → ref ∈ e.interfaces → ref.id = some id →
      Realized index base direct id
  | through {via id : String} {e : Entry} {ref : TypeRef} :
      Realized index base direct via → index.entry? via = some e → ref ∈ e.interfaces →
      ref.id = some id → Realized index base direct id

section BaseChain

variable {index : Index}

theorem onChain_of_mem_baseChain {visited : List String} {base : Option TypeRef} {e : Entry}
    (present : e ∈ baseChain index visited base) : OnChain index base e := by
  fun_induction baseChain index visited base with
  | case1 => cases present
  | case2 => cases present
  | case3 visited id new first found _ ih =>
    rcases List.mem_cons.mp present with rfl | later
    · exact .here found
    · exact .above found (ih later)
  | case4 => cases present

theorem mem_baseChain_of_entry {visited : List String} {id : String} {e : Entry}
    (known : index.entry? id = some e) (new : id ∉ visited) :
    e ∈ baseChain index visited (some ⟨some id, false⟩) := by
  rw [baseChain, dif_neg (by simpa using new)]
  split
  next missing => simp [missing] at known
  next first found =>
    have same : first = e := Option.some.inj (found.symm.trans known)
    exact same ▸ List.mem_cons_self

theorem baseChain_closed {visited : List String} {base : Option TypeRef} {x e : Entry}
    {id : String} (present : x ∈ baseChain index visited base)
    (next : x.base = some ⟨some id, false⟩) (known : index.entry? id = some e) :
    e ∈ baseChain index visited base ∨ id ∈ visited := by
  fun_induction baseChain index visited base with
  | case1 => cases present
  | case2 => cases present
  | case3 visited here new first found _ ih =>
    -- The chain ends early only at what was visited, and then the entry is on it already.
    by_cases old : id ∈ here :: visited
    · rcases List.mem_cons.mp old with rfl | before
      · have same : first = e := Option.some.inj (found.symm.trans known)
        exact .inl (same ▸ List.mem_cons_self)
      · exact .inr before
    · rcases List.mem_cons.mp present with rfl | later
      · rw [next]
        exact .inl (List.mem_cons_of_mem _ (mem_baseChain_of_entry known old))
      · rcases ih later with above | visited
        · exact .inl (List.mem_cons_of_mem _ above)
        · exact absurd visited old
  | case4 => cases present

theorem mem_of_onChain {es : List Entry} {start : Option TypeRef} {e : Entry}
    (chain : OnChain index start e)
    (first : ∀ id x, start = some ⟨some id, false⟩ → index.entry? id = some x → x ∈ es)
    (closed : ∀ y ∈ es, ∀ id x, y.base = some ⟨some id, false⟩ →
      index.entry? id = some x → x ∈ es) : e ∈ es := by
  induction chain with
  | here known => exact first _ _ rfl known
  | above known _ ih => exact ih (closed _ (first _ _ rfl known))

/-- The walk along the bases meets every entry of the chain, also when the chain is a cycle. -/
theorem mem_baseChain (base : Option TypeRef) (e : Entry) :
    e ∈ baseChain index [] base ↔ OnChain index base e := by
  constructor
  · exact onChain_of_mem_baseChain
  · intro chain
    refine mem_of_onChain chain ?_ ?_
    · intro id x starts known
      exact starts ▸ mem_baseChain_of_entry known List.not_mem_nil
    · intro y present id x next known
      rcases baseChain_closed present next known with above | impossible
      · exact above
      · cases impossible

end BaseChain

section Close

variable {index : Index}

theorem mem_close_of_seen {seen : List String} {unresolved : Nat} {refs : List TypeRef}
    {id : String} (known : id ∈ seen) : id ∈ (close index seen unresolved refs).1 := by
  fun_induction close index seen unresolved refs with
  | case1 seen unresolved => exact List.mem_reverse.mpr known
  | case2 seen unresolved _ rest ih => exact ih known
  | case3 seen unresolved here _ rest new ih => exact ih known
  | case4 seen unresolved here _ rest new missing _ ih => exact ih (List.mem_cons_of_mem _ known)
  | case5 seen unresolved here _ rest new e found _ ih => exact ih (List.mem_cons_of_mem _ known)

theorem mem_close_of_ref {seen : List String} {unresolved : Nat} {refs : List TypeRef}
    {ref : TypeRef} {id : String} (present : ref ∈ refs) (leads : ref.id = some id) :
    id ∈ (close index seen unresolved refs).1 := by
  fun_induction close index seen unresolved refs with
  | case1 => cases present
  | case2 seen unresolved _ rest ih =>
    rcases List.mem_cons.mp present with rfl | later
    · cases leads
    · exact ih later
  | case3 seen unresolved here _ rest old ih =>
    rcases List.mem_cons.mp present with rfl | later
    · obtain rfl : here = id := Option.some.inj leads
      exact mem_close_of_seen (by simpa using old)
    · exact ih later
  | case4 seen unresolved here _ rest new missing _ ih =>
    rcases List.mem_cons.mp present with rfl | later
    · obtain rfl : here = id := Option.some.inj leads
      exact mem_close_of_seen List.mem_cons_self
    · exact ih later
  | case5 seen unresolved here _ rest new e found _ ih =>
    rcases List.mem_cons.mp present with rfl | later
    · obtain rfl : here = id := Option.some.inj leads
      exact mem_close_of_seen List.mem_cons_self
    · exact ih (List.mem_append_right _ later)

theorem close_closed {seen : List String} {unresolved : Nat} {refs : List TypeRef}
    {via id : String} {e : Entry} {ref : TypeRef}
    (present : via ∈ (close index seen unresolved refs).1) (new : via ∉ seen)
    (known : index.entry? via = some e) (listed : ref ∈ e.interfaces)
    (leads : ref.id = some id) : id ∈ (close index seen unresolved refs).1 := by
  fun_induction close index seen unresolved refs with
  | case1 seen unresolved => exact absurd (List.mem_reverse.mp present) new
  | case2 seen unresolved _ rest ih => exact ih present new
  | case3 seen unresolved here _ rest old ih => exact ih present new
  | case4 seen unresolved here _ rest _ missing _ ih =>
    have other : via ≠ here := by
      rintro rfl
      simp [missing] at known
    exact ih present (by simp [other, new])
  | case5 seen unresolved here _ rest _ first found _ ih =>
    -- The interfaces of a type that is new are put before all that is pending.
    by_cases self : via = here
    · subst self
      obtain rfl : first = e := Option.some.inj (found.symm.trans known)
      exact mem_close_of_ref (List.mem_append_left _ listed) leads
    · exact ih present (by simp [self, new])

theorem realized_of_mem_close {base : Option TypeRef} {direct : List TypeRef}
    {seen : List String} {unresolved : Nat} {refs : List TypeRef} {id : String}
    (present : id ∈ (close index seen unresolved refs).1)
    (seenRealized : ∀ i ∈ seen, Realized index base direct i)
    (refsRealized : ∀ ref ∈ refs, ∀ i, ref.id = some i → Realized index base direct i) :
    Realized index base direct id := by
  -- All that is seen or pending is realized, and every step of the walk keeps it so.
  fun_induction close index seen unresolved refs with
  | case1 seen unresolved => exact seenRealized id (List.mem_reverse.mp present)
  | case2 seen unresolved _ rest ih =>
    exact ih present seenRealized fun ref later => refsRealized ref (List.mem_cons_of_mem _ later)
  | case3 seen unresolved here _ rest old ih =>
    exact ih present seenRealized fun ref later => refsRealized ref (List.mem_cons_of_mem _ later)
  | case4 seen unresolved here _ rest new missing _ ih =>
    have first := refsRealized _ List.mem_cons_self here rfl
    refine ih present (List.forall_mem_cons.mpr ⟨first, seenRealized⟩) ?_
    exact fun ref later => refsRealized ref (List.mem_cons_of_mem _ later)
  | case5 seen unresolved here _ rest new e found _ ih =>
    have first := refsRealized _ List.mem_cons_self here rfl
    refine ih present (List.forall_mem_cons.mpr ⟨first, seenRealized⟩) ?_
    intro ref pending i leads
    rcases List.mem_append.mp pending with listed | later
    · exact first.through found listed leads
    · exact refsRealized ref (List.mem_cons_of_mem _ later) i leads

end Close

theorem mem_allInterfaces_iff_close (index : Index) (base : Option TypeRef)
    (direct : List TypeRef) (id : String) :
    (∃ ref ∈ allInterfaces index base direct, ref.id = some id) ↔
      id ∈ (close index [] 0
        (direct ++ (baseChain index [] base).flatMap Entry.interfaces)).1 := by
  simp [allInterfaces, or_and_right, exists_or, TypeRef.known, TypeRef.unresolved]

theorem mem_allInterfaces (index : Index) (base : Option TypeRef) (direct : List TypeRef)
    (id : String) :
    (∃ ref ∈ allInterfaces index base direct, ref.id = some id) ↔
      Realized index base direct id := by
  rw [mem_allInterfaces_iff_close]
  constructor
  · intro present
    refine realized_of_mem_close present (by simp) ?_
    intro ref start i leads
    rcases List.mem_append.mp start with own | inherited
    · exact .own own leads
    · obtain ⟨e, met, listed⟩ := List.mem_flatMap.mp inherited
      exact .inherited ((mem_baseChain base e).mp met) listed leads
  · intro realized
    induction realized with
    | own present leads => exact mem_close_of_ref (List.mem_append_left _ present) leads
    | inherited chain present leads =>
      have met := (mem_baseChain base _).mpr chain
      have start := List.mem_flatMap.mpr ⟨_, met, present⟩
      exact mem_close_of_ref (List.mem_append_right _ start) leads
    | through _ known present leads ih =>
      exact close_closed ih List.not_mem_nil known present leads

namespace Index

def Within (index index' : Index) : Prop :=
  ∀ id e, index.entry? id = some e →
    ∃ e', index'.entry? id = some e' ∧ e'.base = e.base ∧ e.interfaces ⊆ e'.interfaces

def without (index : Index) (id : String) : Index := index.filter fun e => e.id ≠ id

theorem entry?_without {index : Index} {id via : String} (other : via ≠ id) :
    Index.entry? (index.without id) via = index.entry? via := by
  rw [ entry?, entry?, without, List.find?_filter]
  congr 1
  funext e
  by_cases same : e.id = via
  · simp [same, other]
  · simp [same]

theorem without_within (index : Index) (id : String) : (index.without id).Within index := by
  intro via e known
  by_cases same : via = id
  · have kept := List.mem_of_find?_eq_some known
    have self : e.id = via := by simpa using List.find?_some known
    exact absurd (self.trans same) (by simpa using (List.mem_filter.mp kept).2)
  · exact ⟨e, (entry?_without same).symm.trans known, rfl, List.Subset.refl _⟩

end Index

section Avoidance

variable {index : Index} {base : Option TypeRef} {direct : List TypeRef} {id target : String}
  {e : Entry}

theorem OnChain.mono {index' : Index} (within : index.Within index') {x : Entry}
    (chain : OnChain index base x) :
    ∃ y, OnChain index' base y ∧ x.interfaces ⊆ y.interfaces := by
  induction chain with
  | here known =>
    obtain ⟨y, known', _, kept⟩ := within _ _ known
    exact ⟨y, .here known', kept⟩
  | above known _ ih =>
    obtain ⟨first, known', base, _⟩ := within _ _ known
    obtain ⟨y, chain, kept⟩ := ih
    exact ⟨y, .above known' (base ▸ chain), kept⟩

theorem Realized.mono {index' : Index} {direct' : List TypeRef} (within : index.Within index')
    (more : direct ⊆ direct') (realized : Realized index base direct target) :
    Realized index' base direct' target := by
  induction realized with
  | own present leads => exact .own (more present) leads
  | inherited chain present leads =>
    obtain ⟨y, chain', kept⟩ := chain.mono within
    exact .inherited chain' (kept present) leads
  | through _ known present leads ih =>
    obtain ⟨y, known', _, kept⟩ := within _ _ known
    exact ih.through known' (kept present) leads

theorem not_realized (bare : ∀ x, OnChain index base x → x.interfaces = []) :
    ¬Realized index base [] target := by
  intro realized
  induction realized with
  | own present => cases present
  | inherited chain present =>
    rw [bare _ chain] at present
    cases present
  | through _ _ _ _ ih => exact ih

theorem OnChain.avoid (known : index.entry? id = some e) {x : Entry}
    (chain : OnChain index base x) :
    OnChain (index.without id) base x ∨ x = e ∨ OnChain index e.base x := by
  induction chain with
  | @here via first found =>
    by_cases same : via = id
    · subst same
      exact .inr (.inl (Option.some.inj (found.symm.trans known)))
    · exact .inl (.here ((Index.entry?_without same).trans found))
  | @above via first x found rest ih =>
    by_cases same : via = id
    · subst same
      obtain rfl : first = e := Option.some.inj (found.symm.trans known)
      exact .inr (.inr rest)
    · rcases ih with kept | beyond
      · exact .inl (.above ((Index.entry?_without same).trans found) kept)
      · exact .inr beyond

theorem Realized.avoid (known : index.entry? id = some e)
    (realized : Realized index base direct target) :
    Realized (index.without id) base direct target ∨
      Realized index e.base e.interfaces target := by
  induction realized with
  | own present leads => exact .inl (.own present leads)
  | inherited chain present leads =>
    rcases chain.avoid known with kept | rfl | beyond
    · exact .inl (.inherited kept present leads)
    · exact .inr (.own present leads)
    · exact .inr (.inherited beyond present leads)
  | @through via _ x _ _ found present leads ih =>
    by_cases same : via = id
    · subst same
      obtain rfl : x = e := Option.some.inj (found.symm.trans known)
      exact .inr (.own present leads)
    · rcases ih with kept | beyond
      · exact .inl (kept.through ((Index.entry?_without same).trans found) present leads)
      · exact .inr (beyond.through found present leads)

theorem Realized.of_base (known : index.entry? id = some e)
    (realized : Realized index e.base e.interfaces target) :
    Realized index (some ⟨some id, false⟩) direct target := by
  induction realized with
  | own present leads => exact .inherited (.here known) present leads
  | inherited chain present leads => exact .inherited (.above known chain) present leads
  | through _ found present leads ih => exact ih.through found present leads

theorem Realized.of_interface (known : index.entry? id = some e) (noBase : e.base = none)
    (reached : Realized index base direct id)
    (realized : Realized index e.base e.interfaces target) :
    Realized index base direct target := by
  induction realized with
  | own present leads => exact reached.through known present leads
  | inherited chain =>
    rw [noBase] at chain
    cases chain
  | through _ found present leads ih => exact ih.through found present leads

end Avoidance

end ClassDiagram.Dump
