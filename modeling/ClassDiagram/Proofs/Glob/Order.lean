import ClassDiagram.Glob.Walk
import Mathlib.Data.Prod.Lex
import Mathlib.Data.String.Basic
import Mathlib.Order.Lex

/-! The order of the matches of a pattern. Paths are compared by their components as lists are by
their items, which is a total preorder; so leaving out paths before they are put in order is the same
as leaving them out afterwards. -/

namespace ClassDiagram

namespace Path

def keys (p : Path) : List (Nat ×ₗ String) := p.components.map fun c => toLex c.key

theorem Component.key_inj {a b : Component} : a.key = b.key ↔ a = b := by
  cases a <;> cases b <;> simp [Component.key]

theorem precedesAll_iff (as bs : List Component) : precedesAll as bs = true ↔
    as.map (fun c => toLex c.key) < bs.map fun c => toLex c.key := by
  induction as generalizing bs with
  | nil => cases bs <;> simp [precedesAll]
  | cons a as ih =>
    cases bs with
    | nil => simp [precedesAll]
    | cons b bs =>
      have first : a.precedes b = true ↔ toLex a.key < toLex b.key := by
        simp [Component.precedes, Prod.Lex.toLex_lt_toLex]
      have equal : (a == b) = true ↔ toLex a.key = toLex b.key := by
        rw [beq_iff_eq, toLex_inj, Component.key_inj]
      rw [precedesAll, Bool.or_eq_true, Bool.and_eq_true, first, equal, ih, List.map_cons,
        List.map_cons, List.cons_lt_cons_iff]

end Path

namespace Glob

theorem byComponents_iff {p q : Path} : byComponents p q = true ↔ p.keys ≤ q.keys := by
  rw [byComponents, Bool.not_eq_true', ← Bool.not_eq_true, Path.precedes, Path.precedesAll_iff]
  exact not_lt

theorem byComponents_trans (p q r : Path) (first : byComponents p q = true)
    (second : byComponents q r = true) : byComponents p r = true :=
  byComponents_iff.mpr ((byComponents_iff.mp first).trans (byComponents_iff.mp second))

theorem byComponents_total (p q : Path) : (byComponents p q || byComponents q p) = true := by
  rw [Bool.or_eq_true, byComponents_iff, byComponents_iff]
  exact le_total _ _

section

variable {α : Type} {le : α → α → Bool}

theorem append_unique {p : α → Bool} {xs xs' ys ys' : List α} (whole : xs ++ ys = xs' ++ ys')
    (out : ∀ x ∈ xs, p x = false) (out' : ∀ x ∈ xs', p x = false) (met : ∀ y ∈ ys, p y = true)
    (met' : ∀ y ∈ ys', p y = true) : xs = xs' ∧ ys = ys' := by
  have kept : ∀ {xs ys : List α}, (∀ x ∈ xs, p x = false) → (∀ y ∈ ys, p y = true) →
      (xs ++ ys).filter p = ys := by
    intro xs ys out met
    rw [List.filter_append, List.filter_eq_nil_iff.mpr (by simpa using out),
      List.filter_eq_self.mpr met, List.nil_append]
  obtain rfl : ys = ys' := by rw [← kept out met, whole, kept out' met']
  exact ⟨List.append_cancel_right whole, rfl⟩

/-- Leaving out items commutes with putting them in order, as long as the order is kept among
equals. -/
theorem filter_mergeSort (trans : ∀ a b c, le a b = true → le b c = true → le a c = true)
    (total : ∀ a b, (le a b || le b a) = true) (keep : α → Bool) (xs : List α) :
    (xs.mergeSort le).filter keep = (xs.filter keep).mergeSort le := by
  induction xs with
  | nil => simp
  | cons x xs ih =>
    obtain ⟨before, after, whole, rest, less⟩ := List.mergeSort_cons trans total x xs
    rw [rest, List.filter_append] at ih
    rw [whole, List.filter_append]
    cases kept : keep x with
    | false => rw [List.filter_cons_of_neg (by simp [kept]), List.filter_cons_of_neg (by simp [kept]), ih]
    | true =>
      rw [List.filter_cons_of_pos kept, List.filter_cons_of_pos kept]
      obtain ⟨before', after', whole', rest', less'⟩ :=
        List.mergeSort_cons trans total x (xs.filter keep)
      have sorted : ∀ {before after : List α}, (before ++ x :: after).Pairwise (le · ·) →
          ∀ y ∈ after, le x y = true := fun sorted =>
        (List.pairwise_cons.mp (List.pairwise_append.mp sorted).2.1).1
      have later := sorted (whole ▸ List.pairwise_mergeSort trans total (x :: xs))
      have later' := sorted (whole' ▸ List.pairwise_mergeSort trans total (x :: xs.filter keep))
      -- The place of an item is where it stops to be greater.
      obtain ⟨same, same'⟩ := append_unique (ih.trans rest')
        (fun y mem => by simpa using less y (List.mem_filter.mp mem).1)
        (fun y mem => by simpa using less' y mem) (fun y mem => later y (List.mem_filter.mp mem).1)
        later'
      rw [whole', same, same']

end

end Glob

end ClassDiagram
