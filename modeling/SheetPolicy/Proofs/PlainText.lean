import Mathlib
import SheetPolicy.Proofs.Outline
import SheetPolicy.Proofs.RelativePath

/-!
What the functions on plain text find, said without them: the text behind a given start, the texts
on either side of a mark, the text behind blanks, the text between blanks (`TrimsTo`).
-/

namespace SheetPolicy.Text

theorem afterPrefix?_eq_some_iff {head cs rest : List Char} :
    afterPrefix? head cs = some rest ↔ cs = head ++ rest := by
  fun_induction afterPrefix? head cs with
  | case1 cs => simp
  | case2 h head => simp
  | case3 head c cs ih => simp [ih]
  | case4 h head c cs hne => simp [Ne.symm hne]

/-- A text is divided at the first place where a mark stands. -/
theorem splitAtFirst?_eq_some_iff {mark : Char} {cs before after : List Char} :
    splitAtFirst? [mark] cs = some (before, after) ↔
      cs = before ++ mark :: after ∧ mark ∉ before := by
  induction cs generalizing before after with
  | nil => simp [splitAtFirst?]
  | cons c cs ih =>
    rw [splitAtFirst?, afterPrefix?]
    by_cases hc : mark = c
    · subst hc
      cases before with
      | nil => simp [afterPrefix?]
      | cons b before => simp +contextual [afterPrefix?]
    · cases before with
      | nil => simp [hc, Ne.symm hc]
      | cons b before =>
        simp only [if_neg hc, Option.map_eq_some_iff, Prod.exists, ih, List.cons_append,
          List.cons.injEq, List.mem_cons, not_or, Prod.mk.injEq]
        constructor
        · rintro ⟨front, back, ⟨rfl, hfront⟩, ⟨rfl, rfl⟩, rfl⟩
          exact ⟨⟨rfl, rfl⟩, hc, hfront⟩
        · rintro ⟨⟨rfl, rfl⟩, _, hbefore⟩
          exact ⟨before, after, ⟨rfl, hbefore⟩, ⟨rfl, rfl⟩, rfl⟩

/-- What stands behind the blanks at the front. -/
theorem dropWhile_isBlank_eq_iff {cs rest : List Char}
    (hrest : ∀ c, rest.head? = some c → isBlank c = false) :
    cs.dropWhile isBlank = rest ↔ ∃ gap, cs = gap ++ rest ∧ ∀ c ∈ gap, isBlank c = true := by
  constructor
  · rintro rfl
    exact ⟨cs.takeWhile isBlank, List.takeWhile_append_dropWhile.symm,
      fun c hc => List.mem_takeWhile_imp hc⟩
  · rintro ⟨gap, rfl, hgap⟩
    rw [List.dropWhile_append_of_pos hgap]
    cases rest with
    | nil => rfl
    | cons c rest => exact List.dropWhile_cons_of_neg (by simp [hrest c rfl])

/-! ## Texts between blanks -/

/-- `core` is what is left of a text without the blanks around it. -/
structure TrimsTo (cs core : List Char) : Prop where
  around : ∃ lead tail, cs = lead ++ (core ++ tail) ∧ (∀ c ∈ lead, isBlank c = true) ∧
    ∀ c ∈ tail, isBlank c = true
  first : ∀ c, core.head? = some c → isBlank c = false
  last : ∀ c, core.getLast? = some c → isBlank c = false

theorem TrimsTo.trimChars_eq {cs core : List Char} (h : TrimsTo cs core) : trimChars cs = core := by
  obtain ⟨lead, tail, rfl, hlead, htail⟩ := h.around
  rw [trimChars_append_left hlead, trimChars_append_blank htail]
  cases core with
  | nil => rfl
  | cons c core => exact @trimChars_append_tight [] core c (h.first c rfl) h.last

theorem trimsTo_trimChars (cs : List Char) : TrimsTo cs (trimChars cs) where
  around := by
    refine ⟨cs.takeWhile isBlank, (cs.dropWhile isBlank).drop (trimChars cs).length, ?_, ?_, ?_⟩
    · rw [trimChars, Excerpt.dropRightWhile_append_drop, List.takeWhile_append_dropWhile]
    · exact fun c hc => List.mem_takeWhile_imp hc
    · exact fun c hc => Excerpt.of_mem_drop_dropRightWhile hc
  first c hc := by
    have hprefix : trimChars cs <+: cs.dropWhile isBlank :=
      ⟨_, Excerpt.dropRightWhile_append_drop isBlank (cs.dropWhile isBlank)⟩
    obtain ⟨rest, hrest⟩ := hprefix
    have hhead := List.head?_dropWhile_not isBlank cs
    rw [← hrest, List.head?_append, hc] at hhead
    simpa using hhead
  last _ hc := Event.getLast?_dropRightWhile hc

/-- Every text trims to one text. -/
theorem trimsTo_iff {cs core : List Char} : TrimsTo cs core ↔ trimChars cs = core :=
  ⟨TrimsTo.trimChars_eq, fun h => h ▸ trimsTo_trimChars cs⟩

theorem forall₂_trimsTo_iff {xs ys : List (List Char)} :
    List.Forall₂ TrimsTo xs ys ↔ xs.map trimChars = ys := by
  have hrel : TrimsTo = fun cs core => trimChars cs = core := by
    funext cs core
    exact propext trimsTo_iff
  rw [hrel, ← List.forall₂_map_left_iff (R := Eq), List.forall₂_eq_eq_eq]

/-- Only behind a mark that is no blank there are blanks to cut off at the end. -/
theorem trimsTo_append_mark {lead front back : List Char} {mark : Char}
    (hlead : ∀ c ∈ lead, isBlank c = true)
    (hfront : ∀ c, front.head? = some c → isBlank c = false) (hmark : isBlank mark = false) :
    TrimsTo (lead ++ (front ++ mark :: back)) (front ++ mark :: dropRightWhile isBlank back) where
  around := by
    refine ⟨lead, back.drop (dropRightWhile isBlank back).length, ?_, hlead,
      fun c hc => Excerpt.of_mem_drop_dropRightWhile hc⟩
    rw [List.append_assoc front, List.cons_append, Excerpt.dropRightWhile_append_drop]
  first c hc := by
    cases front with
    | nil =>
      obtain rfl : mark = c := by simpa using hc
      exact hmark
    | cons d front => exact hfront c hc
  last c hc := by
    rw [List.getLast?_append_of_ne_nil _ (List.cons_ne_nil _ _), List.getLast?_cons] at hc
    cases hlast : (dropRightWhile isBlank back).getLast? with
    | none =>
      obtain rfl : mark = c := by simpa [hlast] using hc
      exact hmark
    | some d =>
      obtain rfl : d = c := by simpa [hlast] using hc
      exact Event.getLast?_dropRightWhile hlast

theorem trimChars_dropRightWhile (cs : List Char) :
    trimChars (dropRightWhile isBlank cs) = trimChars cs := by
  have hblank : ∀ c ∈ cs.drop (dropRightWhile isBlank cs).length, isBlank c = true :=
    fun c hc => Excerpt.of_mem_drop_dropRightWhile hc
  rw [← trimChars_append_blank hblank, Excerpt.dropRightWhile_append_drop]

end SheetPolicy.Text
