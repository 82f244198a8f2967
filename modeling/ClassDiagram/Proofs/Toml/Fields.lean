import ClassDiagram.Proofs.Toml.Keys
import ClassDiagram.Toml.Data
import ClassDiagram.Toml.Reader
import Mathlib.Data.List.Forall2

/-! The dotted keys of an inline table. Its values are written one after the other under their dotted
keys; read and put under these keys again, in that order, they make a table that is written in the
same way. -/

namespace ClassDiagram.Toml

/-! ### The values of an inline table -/

namespace Value

mutual

/-- The values of an entry, each with its dotted key. -/
def leaves (path : List Key) : Value → List (List Key × Value)
  | inline true _ entries _ => leavesOf path entries
  | v => [(path, v)]

def leavesOf (path : List Key) : InlineEntries → List (List Key × Value)
  | [] => []
  | (key, v) :: rest => v.leaves (path ++ [key]) ++ leavesOf path rest

end

theorem leaves_of_leaf {v : Value} {path : List Key} (leaf : v.isDotted = false) :
    v.leaves path = [(path, v)] := by
  unfold leaves
  split
  · cases leaf
  · rfl

mutual

theorem texts_eq_leaves (path : List Key) : (v : Value) →
    (if v.isDotted then v.dottedTexts path else [(path, v.text)]) =
      (v.leaves path).map fun p => (p.1, p.2.text)
  | scalar _ _ _ => rfl
  | array _ _ _ _ => rfl
  | inline true _ entries _ => entryTexts_eq_leavesOf path entries
  | inline false _ _ _ => rfl

theorem entryTexts_eq_leavesOf (path : List Key) : (entries : InlineEntries) →
    entryTexts path entries = (leavesOf path entries).map fun p => (p.1, p.2.text)
  | [] => rfl
  | (key, v) :: rest => by
    rw [entryTexts, leavesOf, List.map_append, texts_eq_leaves _ v, entryTexts_eq_leavesOf path rest]

end

mutual

theorem leaves_under (path below : List Key) : (v : Value) →
    v.leaves (path ++ below) = (v.leaves below).map fun q => (path ++ q.1, q.2)
  | scalar _ _ _ => rfl
  | array _ _ _ _ => rfl
  | inline true _ entries _ => leavesOf_under path below entries
  | inline false _ _ _ => rfl

theorem leavesOf_under (path below : List Key) : (entries : InlineEntries) →
    leavesOf (path ++ below) entries = (leavesOf below entries).map fun q => (path ++ q.1, q.2)
  | [] => rfl
  | (key, v) :: rest => by
    rw [leavesOf, leavesOf, List.map_append, List.append_assoc, leaves_under path _ v,
      leavesOf_under path below rest]

end

end Value

/-! ### What stays true of the entries of an inline table -/

section

variable {K : Key → Prop} {L : Key → Value → Prop} {key k : Key} {v : Value} {path : List Key}
  {entries entries' first second : InlineEntries}

/-- Entries under names of their own, of which no table from dotted keys is empty. The keys on the
way to a value pass `K`, and a value with its own key passes `L`. -/
inductive InlineKept (K : Key → Prop) (L : Key → Value → Prop) : InlineEntries → Prop
  | nil : InlineKept K L []
  | leaf {key : Key} {v : Value} {rest : InlineEntries} :
      (∀ e ∈ rest, e.1.name ≠ key.name) → v.isDotted = false → L key v →
      InlineKept K L rest → InlineKept K L ((key, v) :: rest)
  | dotted {key : Key} {preamble : String} {inner rest : InlineEntries} {decor : Decor} :
      (∀ e ∈ rest, e.1.name ≠ key.name) → K key → inner ≠ [] → InlineKept K L inner →
      InlineKept K L rest → InlineKept K L ((key, .inline true preamble inner decor) :: rest)

namespace InlineKept

theorem leaves (kept : InlineKept K L entries) (path : List Key) :
    ∀ p ∈ Value.leavesOf path entries, ∃ front key, p.1 = path ++ front ++ [key] ∧
      (∀ k ∈ front, K k) ∧ p.2.isDotted = false ∧ L key p.2 := by
  induction kept generalizing path with
  | nil => simp [Value.leavesOf]
  | @leaf key v rest _ leaf passes _ ih =>
    rw [Value.leavesOf, Value.leaves_of_leaf leaf, List.singleton_append, List.forall_mem_cons]
    exact ⟨⟨[], key, by simp, by simp, leaf, passes⟩, ih path⟩
  | @dotted key preamble inner rest decor _ passes _ _ _ ihInner ih =>
    rw [Value.leavesOf, List.forall_mem_append]
    refine ⟨fun p mem => ?_, ih path⟩
    obtain ⟨front, last, whole, keys, rest⟩ := ihInner (path ++ [key]) p mem
    exact ⟨key :: front, last, by simp [whole], List.forall_mem_cons.mpr ⟨passes, keys⟩, rest⟩

theorem append (kept : InlineKept K L first) (more : InlineKept K L second)
    (apart : ∀ e ∈ first, ∀ e' ∈ second, e'.1.name ≠ e.1.name) :
    InlineKept K L (first ++ second) := by
  induction kept with
  | nil => exact more
  | leaf other leaf passes _ ih =>
    obtain ⟨own, apart⟩ := List.forall_mem_cons.mp apart
    exact .leaf (List.forall_mem_append.mpr ⟨other, own⟩) leaf passes (ih apart)
  | dotted other passes some inner _ _ ih =>
    obtain ⟨own, apart⟩ := List.forall_mem_cons.mp apart
    exact .dotted (List.forall_mem_append.mpr ⟨other, own⟩) passes some inner (ih apart)

theorem exchange (kept : InlineKept K L entries) {name : String} {preamble : String}
    {inner inner' : InlineEntries} {decor : Decor}
    (found : entries.find? (fun e => e.1.name = name) = some (key, .inline true preamble inner decor))
    (later : InlineKept K L inner → InlineKept K L inner' ∧ inner' ≠ []) :
    InlineKept K L (entries.map fun e =>
      if e.1.name = name then (e.1, .inline true preamble inner' decor) else e) := by
  have names : ∀ {rest : InlineEntries} {other : String}, (∀ e ∈ rest, e.1.name ≠ other) →
      ∀ e ∈ rest.map (fun e => if e.1.name = name then
        (e.1, Value.inline true preamble inner' decor) else e), e.1.name ≠ other := by
    intro rest other apart e mem
    obtain ⟨e, listed, rfl⟩ := List.mem_map.mp mem
    have := apart e listed
    split <;> exact this
  have same : ∀ {rest : InlineEntries}, (∀ e ∈ rest, e.1.name ≠ name) →
      rest.map (fun e => if e.1.name = name then
        (e.1, Value.inline true preamble inner' decor) else e) = rest := by
    intro rest apart
    exact (List.map_congr_left fun e mem => if_neg (apart e mem)).trans (List.map_id rest)
  induction kept with
  | nil => cases found
  | @leaf first v rest apart leaf passes rest' ih =>
    by_cases here : first.name = name
    · simp only [List.find?_cons, here, decide_true, Option.some.injEq, Prod.mk.injEq] at found
      rw [found.2] at leaf
      cases leaf
    · simp only [List.find?_cons, here, decide_false] at found
      rw [List.map_cons, if_neg here]
      exact .leaf (names apart) leaf passes (ih found)
  | @dotted first _ _ rest _ apart passes more inner' rest' _ ih =>
    by_cases here : first.name = name
    · simp only [List.find?_cons, here, decide_true, Option.some.injEq, Prod.mk.injEq,
        Value.inline.injEq] at found
      obtain ⟨rfl, _, rfl, rfl, rfl⟩ := found
      rw [List.map_cons, if_pos here, same (here ▸ apart)]
      exact .dotted apart passes (later inner').2 (later inner').1 rest'
    · simp only [List.find?_cons, here, decide_false] at found
      rw [List.map_cons, if_neg here]
      exact .dotted (names apart) passes more inner' (ih found)

theorem placeInline (kept : InlineKept K L entries) (keys : ∀ k ∈ path, K k)
    (leaf : v.isDotted = false) (passes : L key v)
    (placed : placeInline key v path entries = some entries') :
    InlineKept K L entries' ∧ entries' ≠ [] := by
  induction path generalizing entries entries' with
  | nil =>
    rw [Toml.placeInline] at placed
    split at placed
    · cases placed
    · next new =>
      cases placed
      refine ⟨kept.append (.leaf (by simp) leaf passes .nil) ?_, by simp⟩
      simpa using fun k v mem same => new (by simpa using ⟨k, ⟨v, mem⟩, same.symm⟩)
  | cons k path ih =>
    obtain ⟨own, keys⟩ := List.forall_mem_cons.mp keys
    rw [Toml.placeInline] at placed
    split at placed
    · next new =>
      obtain ⟨inner, inserted, rfl⟩ := Option.map_eq_some_iff.mp placed
      obtain ⟨kept', some⟩ := ih .nil keys inserted
      refine ⟨kept.append (.dotted (by simp) own some kept' .nil) ?_, by simp⟩
      have apart := List.find?_eq_none.mp new
      simpa using fun k v mem same => apart _ mem (by simpa using same.symm)
    · next found =>
      obtain ⟨inner, inserted, rfl⟩ := Option.map_eq_some_iff.mp placed
      refine ⟨kept.exchange found fun kept => ih kept keys inserted, ?_⟩
      rintro none
      rw [List.map_eq_nil_iff] at none
      rw [none] at found
      cases found
    · cases placed

end InlineKept

end

/-! ### Values that are put under their keys again -/

/-- A pair that is read where a value was written under a dotted key. -/
structure Pair.Fits (first : Bool) (p : Pair) (q : List Key × Value) : Prop where
  key : ∃ front last, q.1 = front ++ [last] ∧ pathLook first p.path = pathLook first front ∧
    p.key.name = last.name
  data : p.value.data = q.2.data
  leaf : p.value.isDotted = false

structure Pair.Gives (first : Bool) (p : Pair) (q : List Key × Value) : Prop where
  key : ∃ front, q.1 = front ++ [p.key] ∧ pathLook first front = pathLook first p.path
  value : q.2 = p.value

/-- A pair as it is put into the table of its first key. -/
def Pair.below (p : Pair) : Pair := { p with path := p.path.tail }

def placeAll (known : InlineEntries) (pairs : List Pair) : Option InlineEntries :=
  pairs.foldlM (fun entries p => placeInline p.key p.value p.path entries) known

section

variable {K : Key → Prop} {L : Key → Value → Prop} {key k k' : Key} {v : Value} {path : List Key}
  {known entries : InlineEntries} {pairs more : List Pair}

theorem placeAll_append (known : InlineEntries) (first second : List Pair) :
    placeAll known (first ++ second) =
      (placeAll known first).bind fun known => placeAll known second := by
  rw [placeAll, List.foldlM_append]
  rfl

theorem find?_apart (apart : ∀ e ∈ known, e.1.name ≠ k.name) :
    known.find? (fun e => e.1.name = k.name) = none :=
  List.find?_eq_none.mpr fun e mem => by simpa using apart e mem

theorem placeInline_new (apart : ∀ e ∈ known, e.1.name ≠ key.name) :
    placeInline key v [] known = some (known ++ [(key, v)]) := by
  have none : (known.any fun e => e.1.name = key.name) = false := by
    rw [List.any_eq_false]
    exact fun e mem => by simpa using apart e mem
  rw [placeInline, none]
  rfl

theorem placeInline_first (apart : ∀ e ∈ known, e.1.name ≠ k.name) :
    placeInline key v (k :: path) known =
      (placeInline key v path []).map fun inner => known ++ [(k, .inline true "" inner .none)] := by
  rw [placeInline, find?_apart apart]

theorem placeInline_under (apart : ∀ e ∈ known, e.1.name ≠ k.name) (same : k'.name = k.name)
    (inner : InlineEntries) :
    placeInline key v (k' :: path) (known ++ [(k, .inline true "" inner .none)]) =
      (placeInline key v path inner).map fun inner => known ++ [(k, .inline true "" inner .none)] := by
  have found : (known ++ [(k, Value.inline true "" inner .none)]).find?
      (fun e => e.1.name = k'.name) = some (k, .inline true "" inner .none) := by
    rw [same, List.find?_append, find?_apart apart]
    simp
  have map : ∀ later : InlineEntries, (known ++ [(k, Value.inline true "" inner .none)]).map
      (fun e => if e.1.name = k'.name then (e.1, Value.inline true "" later .none) else e) =
        known ++ [(k, .inline true "" later .none)] := by
    intro later
    rw [List.map_append, same]
    congr 1
    · exact (List.map_congr_left fun e mem => if_neg (apart e mem)).trans (List.map_id known)
    · simp
  rw [placeInline, found]
  simp only [map]

theorem placeAll_under (apart : ∀ e ∈ known, e.1.name ≠ k.name)
    (same : ∀ p ∈ pairs, ∃ k' rest, p.path = k' :: rest ∧ k'.name = k.name) (inner : InlineEntries) :
    placeAll (known ++ [(k, .inline true "" inner .none)]) pairs =
      (placeAll inner (pairs.map Pair.below)).map fun inner =>
        known ++ [(k, .inline true "" inner .none)] := by
  induction pairs generalizing inner with
  | nil => rfl
  | cons p pairs ih =>
    obtain ⟨⟨k', rest, path, named⟩, same⟩ := List.forall_mem_cons.mp same
    simp only [placeAll, List.map_cons, List.foldlM_cons] at ih ⊢
    have below : p.below = { p with path := rest } := by rw [Pair.below, path, List.tail_cons]
    rw [path, placeInline_under apart named, below]
    cases placeInline p.key p.value rest inner with
    | none => rfl
    | some next => exact ih same next

theorem Pair.Fits.below {first : Bool} {leaves : List (List Key × Value)}
    (paths : ∀ q ∈ leaves, q.1 ≠ [])
    (fits : List.Forall₂ (Pair.Fits first) pairs (leaves.map fun q => (key :: q.1, q.2))) :
    (∀ p ∈ pairs, ∃ k' rest, p.path = k' :: rest ∧ k'.look first = key.look first) ∧
      List.Forall₂ (Pair.Fits false) (pairs.map Pair.below) leaves := by
  induction leaves generalizing pairs with
  | nil =>
    cases fits
    exact ⟨by simp, .nil⟩
  | cons q leaves ih =>
    obtain ⟨own, paths⟩ := List.forall_mem_cons.mp paths
    obtain ⟨p, pairs, ⟨⟨front, last, whole, path, named⟩, data, leaf⟩, later, rfl⟩ :=
      List.forall₂_cons_right_iff.mp fits
    obtain ⟨ways, later⟩ := ih paths later
    cases front with
    | nil => exact absurd (List.cons.inj whole).2 own
    | cons k front =>
      obtain ⟨rfl, rest⟩ := List.cons.inj whole
      cases here : p.path with
      | nil =>
        rw [here] at path
        cases path
      | cons k' tail =>
        rw [here] at path
        obtain ⟨look, path⟩ := List.cons.inj path
        refine ⟨List.forall_mem_cons.mpr ⟨⟨k', tail, here, look⟩, ways⟩, .cons ⟨⟨front, last, rest, ?_,
          named⟩, data, leaf⟩ later⟩
        rwa [Pair.below, here]

theorem Pair.Gives.under {first : Bool} {leaves : List (List Key × Value)}
    (paths : ∀ p ∈ pairs, ∃ k' rest, p.path = k' :: rest ∧ k'.look first = key.look first)
    (look : k.look first = key.look first)
    (gives : List.Forall₂ (Pair.Gives false) (pairs.map Pair.below) leaves) :
    List.Forall₂ (Pair.Gives first) pairs (leaves.map fun q => (k :: q.1, q.2)) := by
  induction pairs generalizing leaves with
  | nil =>
    cases gives
    exact .nil
  | cons p pairs ih =>
    obtain ⟨⟨k', rest, path, look'⟩, paths⟩ := List.forall_mem_cons.mp paths
    obtain ⟨q, leaves, ⟨⟨front, whole, way⟩, value⟩, later, rfl⟩ :=
      List.forall₂_cons_left_iff.mp gives
    rw [Pair.below, path, List.tail_cons] at way
    refine .cons ⟨⟨k :: front, by simp [whole, Pair.below], ?_⟩, value⟩ (ih paths later)
    rw [path, pathLook, pathLook, look, look', way]

theorem InlineKept.leavesOf_ne_nil (kept : InlineKept K L entries) (some : entries ≠ []) :
    Value.leavesOf [] entries ≠ [] := by
  induction kept with
  | nil => exact absurd rfl some
  | leaf _ leaf => simp [Value.leavesOf, Value.leaves_of_leaf leaf]
  | @dotted key _ inner _ _ _ _ filled _ _ ih =>
    have under := Value.leavesOf_under [key] [] inner
    rw [Value.leavesOf, Value.leaves, List.nil_append]
    simp only [List.append_nil] at under
    simp [under, ih filled]

theorem apart_append {rest : InlineEntries}
    (apart : ∀ e ∈ rest, ∀ e' ∈ known, e'.1.name ≠ e.1.name) (named : k.name = key.name)
    (other : ∀ e ∈ rest, e.1.name ≠ key.name) :
    ∀ e ∈ rest, ∀ e' ∈ known ++ [(k, v)], e'.1.name ≠ e.1.name := by
  intro e mem e' mem'
  rcases List.mem_append.mp mem' with old | new
  · exact apart e mem e' old
  · rw [List.mem_singleton.mp new]
    exact fun same => other e mem (named ▸ same.symm)

/-- The values of kept entries, read as pairs, make entries with the same data that are written as
these pairs. -/
theorem InlineKept.placeAll (kept : InlineKept K L entries) {first : Bool}
    (apart : ∀ e ∈ entries, ∀ e' ∈ known, e'.1.name ≠ e.1.name)
    (fits : List.Forall₂ (Pair.Fits first) pairs (Value.leavesOf [] entries)) :
    ∃ made, Toml.placeAll known pairs = some (known ++ made) ∧
      Value.dataEntries made = Value.dataEntries entries ∧
        List.Forall₂ (Pair.Gives first) pairs (Value.leavesOf [] made) := by
  induction kept generalizing known pairs first with
  | nil =>
    cases fits
    exact ⟨[], by simp [Toml.placeAll], rfl, .nil⟩
  | @leaf key v rest other leaf _ _ ih =>
    obtain ⟨own, apart⟩ := List.forall_mem_cons.mp apart
    rw [Value.leavesOf, Value.leaves_of_leaf leaf] at fits
    obtain ⟨p, pairs, ⟨⟨front, last, whole, path, named⟩, data, flat⟩, later, rfl⟩ :=
      List.forall₂_cons_right_iff.mp fits
    obtain ⟨rfl, same⟩ : front = [] ∧ [key] = [last] := by
      have lengths := congrArg List.length whole
      simp only [List.nil_append, List.length_append, List.length_cons, List.length_nil] at lengths
      obtain rfl : front = [] := List.length_eq_zero_iff.mp (by omega)
      exact ⟨rfl, whole⟩
    obtain rfl := List.head_eq_of_cons_eq same
    have path : p.path = [] := List.length_eq_zero_iff.mp (pathLook_length path)
    have placed : Toml.placeInline p.key p.value [] known = some (known ++ [(p.key, p.value)]) :=
      placeInline_new fun e mem => named ▸ own e mem
    obtain ⟨made, rest', entries, gives⟩ := ih (apart_append apart named other) later
    refine ⟨(p.key, p.value) :: made, ?_, ?_, ?_⟩
    · rw [Toml.placeAll, List.foldlM_cons, path, placed]
      simpa [Toml.placeAll] using rest'
    · rw [Value.dataEntries, Value.dataEntries, named, data, entries]
    · rw [Value.leavesOf, Value.leaves_of_leaf flat]
      exact .cons ⟨⟨[], rfl, by rw [path]⟩, rfl⟩ gives
  | @dotted key preamble inner rest decor other _ filled kept' _ ihInner ih =>
    obtain ⟨own, apart⟩ := List.forall_mem_cons.mp apart
    have under : Value.leaves ([] ++ [key]) (.inline true preamble inner decor) =
        (Value.leavesOf [] inner).map fun q => (key :: q.1, q.2) := by
      have under := Value.leavesOf_under [key] [] inner
      rwa [List.append_nil] at under
    rw [Value.leavesOf, under] at fits
    have here := List.forall₂_take_append _ _ _ fits
    have later := List.forall₂_drop_append _ _ _ fits
    generalize (List.map (fun q : List Key × Value => (key :: q.1, q.2))
      (Value.leavesOf [] inner)).length = n at here later
    rw [← List.take_append_drop n pairs]
    generalize pairs.take n = ours, pairs.drop n = others at here later ⊢
    have paths : ∀ q ∈ Value.leavesOf [] inner, q.1 ≠ [] := by
      intro q mem
      obtain ⟨front, last, whole, _⟩ := kept'.leaves [] q mem
      simp [whole]
    obtain ⟨ways, below⟩ := Pair.Fits.below paths here
    have new : ∀ e ∈ inner, ∀ e' ∈ ([] : InlineEntries), e'.1.name ≠ e.1.name := by simp
    obtain ⟨inner', placed, data, gives⟩ := ihInner new below
    -- The first value makes the table, and the others are put into it.
    cases ours with
    | nil => exact absurd (List.forall₂_nil_left_iff.mp below) (kept'.leavesOf_ne_nil filled)
    | cons p ours =>
      obtain ⟨⟨k, path, way, look⟩, ways'⟩ := List.forall_mem_cons.mp ways
      have named : k.name = key.name := congrArg Prod.fst look
      rw [List.map_cons, Toml.placeAll, List.foldlM_cons] at placed
      obtain ⟨one, begun, placed⟩ := Option.bind_eq_some_iff.mp placed
      have start : Toml.placeInline p.key p.value p.path known =
          some (known ++ [(k, .inline true "" one .none)]) := by
        have begun : Toml.placeInline p.key p.value path [] = some one := by
          rwa [Pair.below, way] at begun
        rw [way, placeInline_first fun e mem => named ▸ own e mem, begun]
        rfl
      have table : Toml.placeAll known (p :: ours) =
          some (known ++ [(k, .inline true "" inner' .none)]) := by
        have more := placeAll_under (fun e mem => named ▸ own e mem)
          (fun p mem => (ways' p mem).imp fun k' => fun ⟨rest, same, look'⟩ =>
            ⟨rest, same, congrArg Prod.fst (look'.trans look.symm)⟩) one
        rw [Toml.placeAll, List.foldlM_cons, start]
        refine more.trans ?_
        rw [show Toml.placeAll one _ = _ from placed]
        rfl
      obtain ⟨made, rest', entries, gives'⟩ := ih (apart_append apart named other) later
      refine ⟨(k, .inline true "" inner' .none) :: made, ?_, ?_, ?_⟩
      · rw [placeAll_append, table, Option.bind_some, rest']
        simp
      · rw [Value.dataEntries, Value.dataEntries, named, Value.data, Value.data, data, entries]
      · have under := Value.leavesOf_under [k] [] inner'
        rw [List.append_nil] at under
        rw [Value.leavesOf, Value.leaves, List.nil_append, under]
        exact List.rel_append (Pair.Gives.under ways look gives) gives'

end

end ClassDiagram.Toml
