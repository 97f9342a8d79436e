import Mathlib
import SheetPolicy.Linter

/-!
The order of violations and what sorting by it keeps. Places are ordered by path, line and column,
so violations of different rules can stand at one place; those stay in the order found
(`filter_alike_mergeSort`). A sorted list is known by its classes of such violations
(`eq_of_filter_alike`), hence leaving violations out and sorting commute (`mergeSort_filter`).
-/

namespace SheetPolicy

/-! ## The order of paths -/

namespace Path

open Std

/-- The name that a step has, if it has one. -/
def Step.text : Step → String
  | .name text => text
  | _ => ""

theorem Step.compare_eq :
    Step.compare = compareLex (compareOn Step.rank) (compareOn Step.text) := by
  funext a b
  cases a <;> cases b <;> rfl

instance : TransCmp Step.compare :=
  Step.compare_eq ▸ inferInstance

theorem compareSteps_eq : compareSteps = List.compareLex Step.compare := by
  funext as bs
  induction as generalizing bs with
  | nil => cases bs <;> rfl
  | cons a as ih =>
    cases bs with
    | nil => rfl
    | cons b bs =>
      rw [compareSteps, ih, List.compareLex]
      cases a.compare b <;> rfl

instance : TransCmp compareSteps :=
  compareSteps_eq ▸ inferInstance

instance : TransCmp compare where
  eq_swap {a b} := @OrientedCmp.eq_swap _ compareSteps _ (steps a) (steps b)
  isLE_trans {a b c} := @TransCmp.isLE_trans _ compareSteps _ (steps a) (steps b) (steps c)

end Path

/-! ## The order of violations -/

namespace Violation

open Std

/-- Compares the paths of two violations. -/
def compareFiles (a b : Violation) : Ordering :=
  Path.compare a.location.file b.location.file

instance : TransCmp compareFiles where
  eq_swap {a b} := @OrientedCmp.eq_swap _ Path.compare _ a.location.file b.location.file
  isLE_trans {a b c} :=
    @TransCmp.isLE_trans _ Path.compare _ a.location.file b.location.file c.location.file

/-- Compares the places of two violations. -/
def comparePlaces : Violation → Violation → Ordering :=
  compareLex compareFiles
    (compareLex (compareOn fun v => v.location.line) (compareOn fun v => v.location.column))

instance : TransCmp comparePlaces :=
  inferInstanceAs (TransCmp (compareLex _ _))

theorem comesBefore_eq (a b : Violation) : comesBefore a b = (comparePlaces a b).isLE := by
  simp only [comesBefore, comparePlaces, compareFiles, compareLex, compareOn]
  cases Path.compare a.location.file b.location.file with
  | lt => rfl
  | gt => rfl
  | eq =>
    rcases Nat.lt_trichotomy a.location.line b.location.line with hline | hline | hline
    · simp [Nat.compare_eq_lt.2 hline, hline.ne, hline]
    · have hcolumn : decide (a.location.column ≤ b.location.column) =
          (compare a.location.column b.location.column).isLE := by
        rw [Bool.eq_iff_iff, decide_eq_true_iff, Nat.isLE_compare]
      simp [hline, hcolumn]
    · simp [Nat.compare_eq_gt.2 hline, hline.ne', hline.le]

theorem comesBefore_trans (a b c : Violation) (hab : comesBefore a b = true)
    (hbc : comesBefore b c = true) : comesBefore a c = true := by
  rw [comesBefore_eq] at *
  exact TransCmp.isLE_trans hab hbc

theorem comesBefore_total (a b : Violation) : (comesBefore a b || comesBefore b a) = true := by
  rw [comesBefore_eq, comesBefore_eq, @OrientedCmp.eq_swap _ comparePlaces _ b a]
  cases comparePlaces a b <;> rfl

end Violation

/-! ## Stable sorting -/

section Sorting

variable {α : Type} {le : α → α → Bool}

/-- Neither of two elements comes strictly before the other. -/
def alike (le : α → α → Bool) (a b : α) : Bool :=
  le a b && le b a

/-- A sorted list is known by its classes of elements that the order does not tell apart. -/
theorem eq_of_filter_alike (hrefl : ∀ a, le a a = true) {xs ys : List α}
    (hxs : xs.Pairwise fun a b => le a b = true) (hys : ys.Pairwise fun a b => le a b = true)
    (h : ∀ a, xs.filter (alike le a) = ys.filter (alike le a)) : xs = ys := by
  induction xs generalizing ys with
  | nil =>
    cases ys with
    | nil => rfl
    | cons y ys => simpa [alike, hrefl] using h y
  | cons x xs ih =>
    cases ys with
    | nil => simpa [alike, hrefl] using h x
    | cons y ys =>
      have hself : ∀ a, alike le a a = true := fun a => by simp [alike, hrefl]
      have hmem : ∀ a, a ∈ x :: xs ↔ a ∈ y :: ys := by
        intro a
        have hclass := congrArg (a ∈ ·) (h a)
        simpa [hself] using hclass
      -- the heads are each in the other list, so neither comes strictly first
      have hxy : le x y = true := by
        rcases List.mem_cons.1 ((hmem y).2 List.mem_cons_self) with rfl | hy
        · exact hrefl y
        · exact List.rel_of_pairwise_cons hxs hy
      have hyx : le y x = true := by
        rcases List.mem_cons.1 ((hmem x).1 List.mem_cons_self) with rfl | hx
        · exact hrefl x
        · exact List.rel_of_pairwise_cons hys hx
      have hheads : x = y := by
        have hclass := h x
        have halike : alike le x y = true := by simp [alike, hxy, hyx]
        rw [List.filter_cons_of_pos (hself x), List.filter_cons_of_pos halike] at hclass
        exact (List.cons.inj hclass).1
      subst hheads
      rw [ih hxs.of_cons hys.of_cons]
      intro a
      have hclass := h a
      by_cases ha : alike le a x = true
      · rw [List.filter_cons_of_pos ha, List.filter_cons_of_pos ha] at hclass
        exact (List.cons.inj hclass).2
      · rwa [List.filter_cons_of_neg ha, List.filter_cons_of_neg ha] at hclass

variable (htrans : ∀ a b c, le a b = true → le b c = true → le a c = true)
  (htotal : ∀ a b, (le a b || le b a) = true)
include htrans htotal

/-- Sorting leaves elements that the order does not tell apart as they stand. -/
theorem filter_alike_mergeSort (a : α) (l : List α) :
    (l.mergeSort le).filter (alike le a) = l.filter (alike le a) := by
  have hsorted : (l.filter (alike le a)).Pairwise fun x y => le x y = true := by
    refine List.pairwise_of_forall_mem_list fun x hx y hy => ?_
    have hxa := (List.mem_filter.1 hx).2
    have hay := (List.mem_filter.1 hy).2
    simp only [alike, Bool.and_eq_true] at hxa hay
    exact htrans x a y hxa.2 hay.1
  have hsub : (l.filter (alike le a)).Sublist (l.mergeSort le) :=
    List.sublist_mergeSort htrans htotal hsorted List.filter_sublist
  have hclass := hsub.filter (alike le a)
  simp only [List.filter_filter, Bool.and_self] at hclass
  have hlength := ((List.mergeSort_perm l le).filter (alike le a)).length_eq
  exact (hclass.eq_of_length hlength.symm).symm

/-- Leaving elements out and sorting commute. -/
theorem mergeSort_filter (keep : α → Bool) (l : List α) :
    (l.filter keep).mergeSort le = (l.mergeSort le).filter keep := by
  have hrefl : ∀ a, le a a = true := fun a => by simpa using htotal a a
  refine eq_of_filter_alike hrefl (List.pairwise_mergeSort htrans htotal _)
    ((List.pairwise_mergeSort htrans htotal l).filter keep) fun a => ?_
  calc ((l.filter keep).mergeSort le).filter (alike le a)
      = (l.filter keep).filter (alike le a) := filter_alike_mergeSort htrans htotal a _
    _ = (l.filter (alike le a)).filter keep := List.filter_comm ..
    _ = ((l.mergeSort le).filter (alike le a)).filter keep := by
        rw [filter_alike_mergeSort htrans htotal]
    _ = ((l.mergeSort le).filter keep).filter (alike le a) := List.filter_comm ..

end Sorting

end SheetPolicy
