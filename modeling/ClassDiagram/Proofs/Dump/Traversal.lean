import ClassDiagram.Proofs.Dump.Closure
import Mathlib.Data.List.Nodup

/-! The interfaces of a type as two loops gather them: one recursive over the references of a type, one
up its chain of bases, with one set of seen identifiers for both. Each run of them ends, since what is
not seen yet gets less, and the order of the visits is that of the list of pending references. -/

namespace ClassDiagram.Dump

variable {index : Index} {seen seen' visited : List String} {unresolved unresolved' : Nat}
  {refs : List TypeRef} {base : Option TypeRef} {direct : List TypeRef}

/-- A run over references: what was seen and left unresolved before it, and what after it. The
interfaces of a type are gathered by a run of their own. -/
inductive Collects (index : Index) : List String → Nat → List TypeRef → List String → Nat → Prop
  | done {seen : List String} {unresolved : Nat} : Collects index seen unresolved [] seen unresolved
  | nowhere {seen seen' : List String} {unresolved unresolved' : Nat} {isRoot : Bool}
      {rest : List TypeRef} :
      Collects index seen (unresolved + 1) rest seen' unresolved' →
      Collects index seen unresolved (⟨none, isRoot⟩ :: rest) seen' unresolved'
  | old {seen seen' : List String} {unresolved unresolved' : Nat} {isRoot : Bool}
      {rest : List TypeRef} {id : String} :
      id ∈ seen → Collects index seen unresolved rest seen' unresolved' →
      Collects index seen unresolved (⟨some id, isRoot⟩ :: rest) seen' unresolved'
  | unknown {seen seen' : List String} {unresolved unresolved' : Nat} {isRoot : Bool}
      {rest : List TypeRef} {id : String} :
      id ∉ seen → index.entry? id = none →
      Collects index (id :: seen) unresolved rest seen' unresolved' →
      Collects index seen unresolved (⟨some id, isRoot⟩ :: rest) seen' unresolved'
  | known {seen inner seen' : List String} {unresolved missed unresolved' : Nat} {isRoot : Bool}
      {rest : List TypeRef} {id : String} {e : Entry} :
      id ∉ seen → index.entry? id = some e →
      Collects index (id :: seen) unresolved e.interfaces inner missed →
      Collects index inner missed rest seen' unresolved' →
      Collects index seen unresolved (⟨some id, isRoot⟩ :: rest) seen' unresolved'

/-- A run up a chain of bases. It ends at the root type, at a type that is not known and at one that
was visited before. -/
inductive Climbs (index : Index) :
    List String → Option TypeRef → List String → Nat → List String → Nat → Prop
  | done {visited seen : List String} {unresolved : Nat} {base : Option TypeRef} :
      (∀ id, base = some ⟨some id, false⟩ → id ∈ visited ∨ index.entry? id = none) →
      Climbs index visited base seen unresolved seen unresolved
  | step {visited seen inner seen' : List String} {unresolved missed unresolved' : Nat}
      {id : String} {e : Entry} :
      id ∉ visited → index.entry? id = some e →
      Collects index seen unresolved e.interfaces inner missed →
      Climbs index (id :: visited) e.base inner missed seen' unresolved' →
      Climbs index visited (some ⟨some id, false⟩) seen unresolved seen' unresolved'

theorem Collects.subset (run : Collects index seen unresolved refs seen' unresolved') :
    seen ⊆ seen' := by
  induction run with
  | done => exact List.Subset.refl _
  | nowhere _ ih => exact ih
  | old _ _ ih => exact ih
  | unknown _ _ _ ih => exact List.Subset.trans (List.subset_cons_self _ _) ih
  | known _ _ _ _ inside after =>
    exact List.Subset.trans (List.subset_cons_self _ _) (List.Subset.trans inside after)

theorem Collects.nodup (run : Collects index seen unresolved refs seen' unresolved')
    (distinct : seen.Nodup) : seen'.Nodup := by
  induction run with
  | done => exact distinct
  | nowhere _ ih => exact ih distinct
  | old _ _ ih => exact ih distinct
  | unknown new _ _ ih => exact ih (distinct.cons new)
  | known new _ _ _ inside after => exact after (inside (distinct.cons new))

theorem Collects.close_append (run : Collects index seen unresolved refs seen' unresolved')
    (pending : List TypeRef) :
    close index seen unresolved (refs ++ pending) = close index seen' unresolved' pending := by
  induction run generalizing pending with
  | done => rfl
  | nowhere _ ih =>
    rw [List.cons_append, close]
    exact ih pending
  | old seen _ ih =>
    rw [List.cons_append, close, dif_pos (by simpa using seen)]
    exact ih pending
  | unknown new missing _ ih =>
    rw [List.cons_append, close, dif_neg (by simpa using new)]
    split
    next => exact ih pending
    next found => rw [missing] at found; cases found
  | known new found _ _ inside after =>
    rw [List.cons_append, close, dif_neg (by simpa using new)]
    split
    next missing => rw [found] at missing; cases missing
    next e same =>
      obtain rfl : _ = e := Option.some.inj (found.symm.trans same)
      rw [inside, after]

theorem unseen_length_le (index : Index) (more : seen ⊆ seen') :
    (index.unseen seen').length ≤ (index.unseen seen).length := by
  refine List.Sublist.length_le (List.monotone_filter_right index fun e new => ?_)
  simp only [Bool.not_eq_true', List.contains_eq_mem, decide_eq_false_iff_not] at new ⊢
  exact fun old => new (more old)

/-- A run exists. A type is looked up only when it is new, so what is not seen yet gets less. -/
theorem exists_collects (index : Index) (seen : List String) (unresolved : Nat)
    (refs : List TypeRef) :
    ∃ seen' unresolved', Collects index seen unresolved refs seen' unresolved' := by
  match refs with
  | [] => exact ⟨_, _, .done⟩
  | ⟨none, _⟩ :: rest =>
    obtain ⟨_, _, run⟩ := exists_collects index seen (unresolved + 1) rest
    exact ⟨_, _, .nowhere run⟩
  | ⟨some id, _⟩ :: rest =>
    by_cases old : id ∈ seen
    · obtain ⟨_, _, run⟩ := exists_collects index seen unresolved rest
      exact ⟨_, _, .old old run⟩
    · cases found : index.entry? id with
      | none =>
        have := Index.unseen_cons_le index id seen
        obtain ⟨_, _, run⟩ := exists_collects index (id :: seen) unresolved rest
        exact ⟨_, _, .unknown old found run⟩
      | some e =>
        have fewer := Index.unseen_cons_lt found (by simpa using old)
        obtain ⟨inner, _, run⟩ := exists_collects index (id :: seen) unresolved e.interfaces
        have := unseen_length_le index run.subset
        obtain ⟨_, _, after⟩ := exists_collects index inner _ rest
        exact ⟨_, _, .known old found run after⟩
termination_by ((index.unseen seen).length, refs.length)
decreasing_by
  all_goals simp only [Prod.lex_def, List.length_cons, true_and]
  all_goals omega

theorem Climbs.nodup (run : Climbs index visited base seen unresolved seen' unresolved')
    (distinct : seen.Nodup) : seen'.Nodup := by
  induction run with
  | done => exact distinct
  | step _ _ collects _ ih => exact ih (collects.nodup distinct)

theorem Climbs.close_eq (run : Climbs index visited base seen unresolved seen' unresolved') :
    close index seen unresolved ((baseChain index visited base).flatMap Entry.interfaces) =
      (seen'.reverse, unresolved') := by
  induction run with
  | @done visited _ _ base ends =>
    have none : baseChain index visited base = [] := by
      unfold baseChain
      split
      next id =>
        split
        · rfl
        next new =>
          split
          · rfl
          next e found =>
            rcases ends id rfl with old | missing
            · exact absurd (by simpa using old) new
            · rw [missing] at found
              cases found
      next => rfl
    rw [none, List.flatMap_nil, close]
  | step new found collects _ ih =>
    rw [baseChain, dif_neg (by simpa using new)]
    split
    next missing => rw [found] at missing; cases missing
    next e same =>
      obtain rfl : _ = e := Option.some.inj (found.symm.trans same)
      rw [List.flatMap_cons, collects.close_append, ih]

theorem exists_climbs (index : Index) (visited : List String) (base : Option TypeRef)
    (seen : List String) (unresolved : Nat) :
    ∃ seen' unresolved', Climbs index visited base seen unresolved seen' unresolved' := by
  fun_induction baseChain index visited base generalizing seen unresolved with
  | case1 visited id old =>
    refine ⟨_, _, .done fun id' same => .inl ?_⟩
    cases same
    simpa using old
  | case2 visited id new missing =>
    refine ⟨_, _, .done fun id' same => .inr ?_⟩
    cases same
    exact missing
  | case3 visited id new e found _ ih =>
    obtain ⟨inner, missed, collects⟩ := exists_collects index seen unresolved e.interfaces
    obtain ⟨_, _, climbs⟩ := ih inner missed
    exact ⟨_, _, .step (by simpa using new) found collects climbs⟩
  | case4 visited base other =>
    exact ⟨_, _, .done fun id same => absurd same (other id)⟩

/-- The run that gathers the interfaces of a type: over its own references, then up the bases. -/
def Gathers (index : Index) (base : Option TypeRef) (direct : List TypeRef) (seen : List String)
    (unresolved : Nat) : Prop :=
  ∃ own missed, Collects index [] 0 direct own missed ∧
    Climbs index [] base own missed seen unresolved

theorem exists_gathers (index : Index) (base : Option TypeRef) (direct : List TypeRef) :
    ∃ seen unresolved, Gathers index base direct seen unresolved := by
  obtain ⟨own, missed, collects⟩ := exists_collects index [] 0 direct
  obtain ⟨seen, unresolved, climbs⟩ := exists_climbs index [] base own missed
  exact ⟨seen, unresolved, own, missed, collects, climbs⟩

theorem Gathers.nodup (run : Gathers index base direct seen unresolved) : seen.Nodup := by
  obtain ⟨own, missed, collects, climbs⟩ := run
  exact climbs.nodup (collects.nodup List.nodup_nil)

theorem Gathers.allInterfaces_eq (run : Gathers index base direct seen unresolved) :
    allInterfaces index base direct =
      seen.reverse.map TypeRef.known ++ List.replicate unresolved .unresolved := by
  obtain ⟨own, missed, collects, climbs⟩ := run
  rw [allInterfaces, collects.close_append, climbs.close_eq]

section Answers

variable {index' : Index}

theorem Collects.congr (same : ∀ id, index.entry? id = index'.entry? id)
    (run : Collects index seen unresolved refs seen' unresolved') :
    Collects index' seen unresolved refs seen' unresolved' := by
  induction run with
  | done => exact .done
  | nowhere _ ih => exact .nowhere ih
  | old seen _ ih => exact .old seen ih
  | unknown new missing _ ih => exact .unknown new ((same _).symm.trans missing) ih
  | known new found _ _ inside after =>
    exact .known new ((same _).symm.trans found) inside after

theorem Climbs.congr (same : ∀ id, index.entry? id = index'.entry? id)
    (run : Climbs index visited base seen unresolved seen' unresolved') :
    Climbs index' visited base seen unresolved seen' unresolved' := by
  induction run with
  | done ends => exact .done fun id starts => same id ▸ ends id starts
  | step new found collects _ ih =>
    exact .step new ((same _).symm.trans found) (collects.congr same) ih

theorem allInterfaces_congr (same : ∀ id, index.entry? id = index'.entry? id)
    (base : Option TypeRef) (direct : List TypeRef) :
    allInterfaces index base direct = allInterfaces index' base direct := by
  obtain ⟨seen, unresolved, own, missed, collects, climbs⟩ := exists_gathers index base direct
  have run : Gathers index base direct seen unresolved := ⟨own, missed, collects, climbs⟩
  have run' : Gathers index' base direct seen unresolved :=
    ⟨own, missed, collects.congr same, climbs.congr same⟩
  rw [run.allInterfaces_eq, run'.allInterfaces_eq]

end Answers

/-- A set of identifiers has all that a type with a base and direct interfaces must realize. -/
structure ClosedUnder (index : Index) (base : Option TypeRef) (direct : List TypeRef)
    (s : String → Prop) : Prop where
  own : ∀ ref ∈ direct, ∀ id, ref.id = some id → s id
  inherited : ∀ e, OnChain index base e → ∀ ref ∈ e.interfaces, ∀ id, ref.id = some id → s id
  through : ∀ via e, s via → index.entry? via = some e → ∀ ref ∈ e.interfaces, ∀ id,
    ref.id = some id → s id

theorem closedUnder_realized : ClosedUnder index base direct (Realized index base direct) where
  own _ present _ leads := .own present leads
  inherited _ chain _ present _ leads := .inherited chain present leads
  through _ _ reached known _ present _ leads := reached.through known present leads

theorem ClosedUnder.of_realized {s : String → Prop} (closed : ClosedUnder index base direct s)
    {id : String} (realized : Realized index base direct id) : s id := by
  induction realized with
  | own present leads => exact closed.own _ present _ leads
  | inherited chain present leads => exact closed.inherited _ chain _ present _ leads
  | through _ known present leads ih => exact closed.through _ _ ih known _ present _ leads

def identifiers (refs : List TypeRef) : List String := refs.filterMap TypeRef.id

theorem mem_identifiers {id : String} :
    id ∈ identifiers refs ↔ ∃ ref ∈ refs, ref.id = some id := List.mem_filterMap

theorem identifiers_gathered (seen : List String) (unresolved : Nat) :
    identifiers (seen.map TypeRef.known ++ List.replicate unresolved .unresolved) = seen := by
  have known : identifiers (seen.map TypeRef.known) = seen := by
    rw [identifiers, List.filterMap_map]
    exact List.filterMap_some
  have nowhere : identifiers (List.replicate unresolved .unresolved) = [] := by
    rw [identifiers, List.filterMap_replicate_of_none rfl]
  rw [identifiers, List.filterMap_append]
  simpa [identifiers] using congrArg₂ (· ++ ·) known nowhere

/-- The interfaces of a type are gathered by a run that ends, cycles or not. Each identifier is met
once, and they are the least set that a type with that base and those interfaces must realize. -/
theorem allInterfaces_least (index : Index) (base : Option TypeRef) (direct : List TypeRef) :
    (∃ seen unresolved, Gathers index base direct seen unresolved ∧
      allInterfaces index base direct =
        seen.reverse.map TypeRef.known ++ List.replicate unresolved .unresolved) ∧
    (identifiers (allInterfaces index base direct)).Nodup ∧
    ClosedUnder index base direct (· ∈ identifiers (allInterfaces index base direct)) ∧
    ∀ s, ClosedUnder index base direct s →
      ∀ id ∈ identifiers (allInterfaces index base direct), s id := by
  obtain ⟨seen, unresolved, run⟩ := exists_gathers index base direct
  have members : ∀ id, id ∈ identifiers (allInterfaces index base direct) ↔
      Realized index base direct id :=
    fun id => mem_identifiers.trans (mem_allInterfaces index base direct id)
  refine ⟨⟨seen, unresolved, run, run.allInterfaces_eq⟩, ?_, ?_, ?_⟩
  · rw [run.allInterfaces_eq, identifiers_gathered]
    exact List.nodup_reverse.mpr run.nodup
  · simp only [members]
    exact closedUnder_realized
  · exact fun s closed id present => closed.of_realized ((members id).mp present)

end ClassDiagram.Dump
