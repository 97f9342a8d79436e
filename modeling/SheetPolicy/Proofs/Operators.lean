import Mathlib
import SheetPolicy.Proofs.Cursor.Access
import SheetPolicy.Rule.RangeOperator

/-!
The range operators of a media query are the matches of `[^<>](>=|<=|=|>|<)`, taken from left to
right so that no two share a character (`Leftmost`). The character in front of an operator belongs
to the match: it is consumed, so it is no part of the operator before, and a text cannot start with
an operator.

Where all comparison characters of a text form single operators and none starts the text, the
operators are the maximal runs of comparison characters.

A search from byte to byte, which goes on behind each operator that it finds, finds the same ones
(`readOperators_eq`). It looks at the byte before the one it stands at, which may be the last of a
longer character, but tells only ASCII characters apart.
-/

namespace SheetPolicy.RangeOperator

open Located (Runs)

/-! ## Matches -/

/-- The texts of an operator, in the order in which they are tried. -/
def alternatives : List (List Char) :=
  [['>', '='], ['<', '='], ['='], ['>'], ['<']]

/-- `[^<>](>=|<=|=|>|<)` matches at the start of `before :: (operator ++ after)`: it takes `before`
and the operator, whose text is the first alternative that stands there. -/
structure MatchesAt (before : Located) (operator after : List Located) : Prop where
  before_ne : before.char ≠ '<' ∧ before.char ≠ '>'
  first : alternatives.find? (·.isPrefixOf ((operator ++ after).map Located.char)) =
    some (operator.map Located.char)

/-- No match starts at the first of the characters. -/
def Matchless (cs : List Located) : Prop :=
  ∀ before operator after, cs = before :: (operator ++ after) → ¬MatchesAt before operator after

/-- The operators of the matches, each the first that starts behind the one before it. -/
inductive Leftmost : List Located → List (List Located) → Prop
  | ends {cs : List Located} (hall : ∀ tail, tail <:+ cs → Matchless tail) : Leftmost cs []
  | next {passed operator after : List Located} {before : Located} {later : List (List Located)}
      (hmatch : MatchesAt before operator after)
      (hleft : ∀ c cs, c :: cs <:+ passed → Matchless (c :: (cs ++ before :: (operator ++ after))))
      (hlater : Leftmost after later) :
      Leftmost (passed ++ before :: (operator ++ after)) (operator :: later)

/-- Reading an operator tries the alternatives in turn. -/
theorem operator?_eq (cs : List Located) :
    operator? cs = (alternatives.find? (·.isPrefixOf (cs.map Located.char))).map
      fun text => cs.take text.length := by
  rcases cs with _ | ⟨c, cs⟩
  · rfl
  have hchar : (c.char = '>' ∨ c.char = '<') ∨ c.char = '=' ∨
      c.char ≠ '>' ∧ c.char ≠ '<' ∧ c.char ≠ '=' := by grind
  rcases hchar with hangle | heq | ⟨hgt, hlt, heq⟩
  · rcases cs with _ | ⟨d, cs⟩
    · rcases hangle with h | h <;> simp [operator?, alternatives, h]
    · rcases hangle with h | h <;> by_cases hd : d.char = '=' <;>
        simp [operator?, alternatives, h, hd, Ne.symm]
  · simp [operator?, alternatives, heq]
  · simp [operator?, alternatives, hgt, hlt, heq, Ne.symm]

theorem operator?_eq_some_iff {cs operator : List Located} : operator? cs = some operator ↔
    ∃ after, cs = operator ++ after ∧
      alternatives.find? (·.isPrefixOf ((operator ++ after).map Located.char)) =
        some (operator.map Located.char) := by
  rw [operator?_eq, Option.map_eq_some_iff]
  constructor
  · rintro ⟨text, hfirst, rfl⟩
    have htext : (cs.take text.length).map Located.char = text := by
      have hfound : text <+: cs.map Located.char := by simpa using List.find?_some hfirst
      rw [List.map_take]
      exact (List.prefix_iff_eq_take.1 hfound).symm
    exact ⟨cs.drop text.length, (List.take_append_drop ..).symm,
      by rwa [List.take_append_drop, htext]⟩
  · rintro ⟨after, rfl, hfirst⟩
    exact ⟨_, hfirst, by simp⟩

theorem MatchesAt.mem_alternatives {before : Located} {operator after : List Located}
    (h : MatchesAt before operator after) : operator.map Located.char ∈ alternatives :=
  List.mem_of_find?_eq_some h.first

theorem MatchesAt.operator_ne_nil {before : Located} {operator after : List Located}
    (h : MatchesAt before operator after) : operator ≠ [] := by
  rintro rfl
  simpa [alternatives] using h.mem_alternatives

/-- What stands at a place decides which operator is read there. -/
theorem MatchesAt.unique {before before' : Located} {operator operator' after after' : List Located}
    (h : MatchesAt before operator after) (h' : MatchesAt before' operator' after')
    (heq : operator ++ after = operator' ++ after') : operator = operator' := by
  have htext : operator.map Located.char = operator'.map Located.char := by
    have hfirst := h.first
    rw [heq, h'.first] at hfirst
    exact (Option.some.inj hfirst).symm
  exact (List.append_inj heq (by simpa using congrArg List.length htext)).1

/-! ## The scan finds the leftmost matches -/

/-- Without a character before them, the first of the characters is no part of an operator. -/
theorem scan_none_cons (c : Located) (cs : List Located) :
    scan none 0 (c :: cs) = scan (some c.char) 0 cs := by
  simp [scan]

/-- Characters that are to be passed are as good as gone. -/
theorem scan_none_drop (skip : Nat) (cs : List Located) :
    scan none skip cs = scan none 0 (cs.drop skip) := by
  induction cs generalizing skip with
  | nil => simp [scan]
  | cons c cs ih =>
    cases skip with
    | zero => rfl
    | succ skip => rw [scan, ih, List.drop_succ_cons]

theorem scan_of_matchesAt {before : Located} {operator after : List Located}
    (h : MatchesAt before operator after) :
    scan none 0 (before :: (operator ++ after)) = operator :: scan none 0 after := by
  have hread : operator? (operator ++ after) = some operator :=
    operator?_eq_some_iff.2 ⟨after, rfl, h.first⟩
  obtain ⟨c, rest, rfl⟩ := List.exists_cons_of_ne_nil h.operator_ne_nil
  rw [scan_none_cons, List.cons_append, scan]
  rw [List.cons_append] at hread
  simp [h.before_ne, hread, scan_none_drop rest.length]

theorem scan_of_matchless {c : Located} {cs : List Located} (h : Matchless (c :: cs)) :
    scan none 0 (c :: cs) = scan none 0 cs := by
  rw [scan_none_cons]
  cases cs with
  | nil => rfl
  | cons d cs =>
    have hnone : (if (some c.char).any fun b => b != '>' && b != '<' then operator? (d :: cs)
        else none) = none := by
      split
      · rename_i hbefore
        refine Option.eq_none_iff_forall_ne_some.2 fun operator hread => ?_
        obtain ⟨after, hcs, hfirst⟩ := operator?_eq_some_iff.1 hread
        refine h c operator after (by rw [hcs]) ⟨?_, hfirst⟩
        simpa [and_comm] using hbefore
      · rfl
    rw [scan_none_cons, scan]
    simp only [hnone]

theorem Leftmost.eq_scan {cs : List Located} {found : List (List Located)}
    (h : Leftmost cs found) : found = scan none 0 cs := by
  induction h with
  | @ends cs hall =>
    induction cs with
    | nil => rfl
    | cons c cs ih =>
      rw [scan_of_matchless (hall _ (List.suffix_refl _))]
      exact ih fun tail htail => hall tail (htail.trans (List.suffix_cons c cs))
  | @next passed operator after before later hmatch hleft _ ih =>
    induction passed with
    | nil => rw [List.nil_append, scan_of_matchesAt hmatch, ih]
    | cons c passed ihpassed =>
      rw [List.cons_append, scan_of_matchless (hleft c passed (List.suffix_refl _))]
      exact ihpassed fun d ds hds => hleft d ds (hds.trans (List.suffix_cons c passed))

/-- One more character in front, where no match starts. -/
theorem Leftmost.cons {c : Located} {cs : List Located} {found : List (List Located)}
    (hc : Matchless (c :: cs)) (h : Leftmost cs found) : Leftmost (c :: cs) found := by
  cases h with
  | ends hall =>
    refine .ends fun tail htail => ?_
    rcases List.suffix_cons_iff.1 htail with rfl | htail
    · exact hc
    · exact hall tail htail
  | @next passed operator after before later hmatch hleft hlater =>
    rw [← List.cons_append]
    refine .next hmatch (fun d ds hds => ?_) hlater
    rcases List.suffix_cons_iff.1 hds with heq | hds
    · obtain ⟨rfl, rfl⟩ := List.cons.inj heq
      exact hc
    · exact hleft d ds hds

theorem leftmost_scan (cs : List Located) : Leftmost cs (scan none 0 cs) := by
  induction hn : cs.length using Nat.strong_induction_on generalizing cs with
  | _ n ih =>
    subst hn
    cases cs with
    | nil => exact .ends (by simp +contextual [Matchless])
    | cons c cs =>
      by_cases hmatch : Matchless (c :: cs)
      · rw [scan_of_matchless hmatch]
        exact (ih cs.length (by simp) cs rfl).cons hmatch
      · simp only [Matchless, not_forall, not_not] at hmatch
        obtain ⟨before, operator, after, heq, hmatch⟩ := hmatch
        have hshorter : after.length < (c :: cs).length := by
          rw [heq]
          simp
        rw [heq, scan_of_matchesAt hmatch, ← List.nil_append (before :: _)]
        exact .next hmatch (by simp) (ih after.length hshorter after rfl)

theorem leftmost_iff {params : String} {found : List (List Located)} :
    Leftmost (Located.ofString params) found ↔ found = operators params :=
  ⟨Leftmost.eq_scan, fun h => h ▸ leftmost_scan _⟩

/-! ## Where the operators stand -/

theorem Leftmost.mem {cs operator : List Located} {found : List (List Located)}
    (h : Leftmost cs found) (hmem : operator ∈ found) :
    ∃ front before after, cs = front ++ before :: (operator ++ after) ∧
      MatchesAt before operator after := by
  induction h with
  | ends => simp at hmem
  | @next passed first rest before later hmatch _ _ ih =>
    rcases List.mem_cons.1 hmem with rfl | hmem
    · exact ⟨passed, before, rest, rfl, hmatch⟩
    · obtain ⟨front, before', after, rfl, hmatch'⟩ := ih hmem
      exact ⟨passed ++ before :: (first ++ front), before', after, by simp, hmatch'⟩

/-- An operator is a piece of the text. -/
theorem mem_operators {params : String} {operator : List Located}
    (h : operator ∈ operators params) :
    operator ≠ [] ∧ ∃ front back, Located.ofString params = front ++ (operator ++ back) := by
  obtain ⟨front, before, after, hparams, hmatch⟩ := (leftmost_iff.2 rfl).mem h
  exact ⟨hmatch.operator_ne_nil, front ++ [before], after, by simp [hparams]⟩

/-- An operator starts after what stands before it. -/
theorem startOf_eq {start stop : Nat} {front operator back : List Located} (hne : operator ≠ [])
    (h : Runs start (front ++ (operator ++ back)) stop) :
    Located.startOf 0 operator = start + Located.size front := by
  obtain ⟨c, cs, rfl⟩ := List.exists_cons_of_ne_nil hne
  exact h.of_append.2.1

/-- The offset after an operator is where it ends. -/
theorem stopOf_eq {start stop : Nat} {front operator back : List Located} (hne : operator ≠ [])
    (h : Runs start (front ++ (operator ++ back)) stop) :
    stopOf operator = start + Located.size (front ++ operator) := by
  obtain ⟨written, last, rfl⟩ := (List.eq_nil_or_concat' operator).resolve_left hne
  have hsplit : front ++ (written ++ [last] ++ back) = (front ++ written) ++ last :: back := by simp
  rw [hsplit] at h
  have hlast := h.of_append.2.1
  simp [stopOf, Located.stop, hlast, Nat.add_assoc]

/-- The offset after an operator of a text is the number of bytes up to its end. -/
theorem stopOf_eq_size {text : String} {front operator back : List Located}
    (hne : operator ≠ []) (h : Located.ofString text = front ++ (operator ++ back)) :
    stopOf operator = Located.size (front ++ operator) := by
  have hruns := Located.runs_ofString text
  rw [h] at hruns
  simpa using stopOf_eq hne hruns

/-- The character that an operator needs before it keeps it apart from the operators before. -/
theorem Leftmost.apart {start stop : Nat} {cs : List Located} {found : List (List Located)}
    (h : Leftmost cs found) (hruns : Runs start cs stop) :
    found.Pairwise fun a b => stopOf a < Located.startOf 0 b := by
  induction h generalizing start with
  | ends => exact .nil
  | @next passed operator after before later hmatch _ hlater ih =>
    rw [List.append_cons passed] at hruns
    have hstop := stopOf_eq hmatch.operator_ne_nil hruns
    rw [← List.append_assoc] at hruns
    have hafter := hruns.of_append.2
    refine List.pairwise_cons.2 ⟨fun b hb => ?_, ih hafter⟩
    obtain ⟨front, before', rest, rfl, hmatch'⟩ := hlater.mem hb
    rw [List.append_cons front] at hafter
    have hstart := startOf_eq hmatch'.operator_ne_nil hafter
    have hpos := before'.char.utf8Size_pos
    simp only [Located.size_append, Located.size_cons] at hstop hstart
    omega

/-! ## Runs of comparison characters -/

def isComparison (c : Located) : Bool :=
  c.char == '<' || c.char == '>' || c.char == '='

/-- A maximal run of comparison characters: no neighbour of it is one. -/
def IsRun (cs run : List Located) : Prop :=
  ∃ before after, cs = before ++ (run ++ after) ∧ run ≠ [] ∧ (∀ c ∈ run, isComparison c) ∧
    (∀ c ∈ before.getLast?, ¬isComparison c) ∧ ∀ c ∈ after.head?, ¬isComparison c

theorem isComparison_of_mem_alternatives {operator : List Located}
    (h : operator.map Located.char ∈ alternatives) {c : Located} (hc : c ∈ operator) :
    isComparison c := by
  have hall : ∀ text ∈ alternatives, ∀ d ∈ text, d = '<' ∨ d = '>' ∨ d = '=' := by
    simp [alternatives]
  simpa [isComparison, or_assoc] using hall _ h _ (List.mem_map_of_mem hc)

/-- An operator that no comparison character follows is the first alternative that stands there. -/
theorem find?_alternatives {run after : List Located} (h : run.map Located.char ∈ alternatives)
    (hafter : ∀ c ∈ after.head?, ¬isComparison c) :
    alternatives.find? (·.isPrefixOf ((run ++ after).map Located.char)) =
      some (run.map Located.char) := by
  rw [List.map_append]
  generalize run.map Located.char = text at h
  simp only [alternatives, List.mem_cons, List.not_mem_nil, or_false] at h
  cases after with
  | nil => rcases h with rfl | rfl | rfl | rfl | rfl <;> decide
  | cons c after =>
    have hc : c.char ≠ '=' := by
      have := hafter c rfl
      simp_all [isComparison]
    rcases h with rfl | rfl | rfl | rfl | rfl <;> simp [alternatives, Ne.symm hc]

/-- A character of two parts is in the first, or the second holds it and what follows it. -/
theorem mem_or_append_cons {xs ys front back : List Located} {c : Located}
    (h : xs ++ ys = front ++ c :: back) : c ∈ xs ∨ ∃ middle, ys = middle ++ c :: back := by
  rcases List.append_eq_append_iff.1 h with ⟨middle, _, hys⟩ | ⟨middle, rfl, hback⟩
  · exact .inr ⟨middle, hys⟩
  · cases middle with
    | nil => exact .inr ⟨[], hback.symm⟩
    | cons d middle =>
      obtain ⟨rfl, _⟩ := List.cons.inj hback
      exact .inl (by simp)

/-- A match whose first character is no comparison character cannot be lost to an earlier one. -/
theorem Leftmost.mem_of_matchesAt {cs front run after : List Located} {c : Located}
    {found : List (List Located)} (h : Leftmost cs found) (hcs : cs = front ++ c :: (run ++ after))
    (hc : ¬isComparison c) (hmatch : MatchesAt c run after) : run ∈ found := by
  induction h generalizing front with
  | ends hall =>
    subst hcs
    exact absurd hmatch (hall _ (List.suffix_append _ _) c run after rfl)
  | @next passed operator rest before later hfirst hleft _ ih =>
    have hhere : run ++ after = operator ++ rest → run ∈ operator :: later := fun heq =>
      hmatch.unique hfirst heq ▸ List.mem_cons_self
    rcases List.append_eq_append_iff.1 hcs with ⟨middle, rfl, hback⟩ | ⟨middle, rfl, hback⟩
    · cases middle with
      | nil => exact hhere (List.cons.inj hback).2.symm
      | cons d middle =>
        -- The match starts behind the character that the first one takes, and not in its operator.
        rcases mem_or_append_cons (List.cons.inj hback).2 with hmem | ⟨front, hrest⟩
        · exact absurd (isComparison_of_mem_alternatives hfirst.mem_alternatives hmem) hc
        · exact List.mem_cons_of_mem _ (ih hrest)
    · cases middle with
      | nil => exact hhere (List.cons.inj hback).2
      | cons d middle =>
        -- It would start before the first.
        obtain ⟨rfl, htail⟩ := List.cons.inj hback
        exact absurd hmatch
          (hleft c middle (List.suffix_append _ _) c run after (congrArg (c :: ·) htail.symm))

theorem not_isComparison_of_dropWhile (cs : List Located) :
    ∀ c ∈ (cs.dropWhile isComparison).head?, ¬isComparison c := by
  intro c hc
  have hnot := List.head?_dropWhile_not isComparison cs
  rw [hc] at hnot
  simpa using hnot

/-- The maximal run around some comparison characters. -/
theorem isRun_around {front run back : List Located} (hne : run ≠ [])
    (hrun : ∀ c ∈ run, isComparison c) :
    IsRun (front ++ (run ++ back))
      (front.rtakeWhile isComparison ++ run ++ back.takeWhile isComparison) := by
  refine ⟨front.rdropWhile isComparison, back.dropWhile isComparison, ?_, by simp [hne], ?_, ?_, ?_⟩
  · have hfront := List.rdropWhile_append_rtakeWhile (p := isComparison) (l := front)
    have hback := List.takeWhile_append_dropWhile (p := isComparison) (l := back)
    calc front ++ (run ++ back)
        = (front.rdropWhile isComparison ++ front.rtakeWhile isComparison) ++
            (run ++ (back.takeWhile isComparison ++ back.dropWhile isComparison)) := by
          rw [hfront, hback]
      _ = _ := by simp only [List.append_assoc]
  · intro c hc
    simp only [List.mem_append] at hc
    rcases hc with (hc | hc) | hc
    · exact List.mem_rtakeWhile_imp hc
    · exact hrun c hc
    · exact List.mem_takeWhile_imp hc
  · intro c hc
    obtain ⟨hlast, rfl⟩ := List.mem_getLast?_eq_getLast hc
    exact List.rdropWhile_last_not _ _ hlast
  · exact not_isComparison_of_dropWhile back

/-- In an operator, only an angle has a character behind it. -/
theorem angle_of_mem_alternatives {xs ys : List Char} {c d : Char}
    (h : xs ++ c :: d :: ys ∈ alternatives) : c = '<' ∨ c = '>' := by
  simp only [alternatives, List.mem_cons, List.not_mem_nil, or_false] at h
  rcases xs with _ | ⟨x, _ | ⟨y, xs⟩⟩
  · rcases h with h | h | h | h | h <;> simp_all
  · simp at h
  · simp at h

/-- Where all runs are operators, an operator is all of the run that it is in. -/
theorem MatchesAt.isRun {front operator after : List Located} {before : Located}
    (h : MatchesAt before operator after)
    (hruns : ∀ run, IsRun (front ++ before :: (operator ++ after)) run →
      run.map Located.char ∈ alternatives) :
    IsRun (front ++ before :: (operator ++ after)) operator := by
  have haround : IsRun (front ++ before :: (operator ++ after))
      ((front ++ [before]).rtakeWhile isComparison ++ operator ++
        after.takeWhile isComparison) := by
    rw [List.append_cons]
    exact isRun_around h.operator_ne_nil
      fun c hc => isComparison_of_mem_alternatives h.mem_alternatives hc
  have htext := hruns _ haround
  have hbefore : ¬isComparison before := by
    intro hcompare
    obtain ⟨c, rest, rfl⟩ := List.exists_cons_of_ne_nil h.operator_ne_nil
    rw [List.rtakeWhile_concat_pos _ _ _ hcompare] at htext
    simp only [List.map_append, List.map_cons, List.append_assoc, List.cons_append,
      List.nil_append] at htext
    rcases angle_of_mem_alternatives htext with hlt | hgt
    · exact h.before_ne.1 hlt
    · exact h.before_ne.2 hgt
  rw [List.rtakeWhile_concat_neg _ _ _ hbefore, List.nil_append] at haround htext
  have hfirst := find?_alternatives htext (not_isComparison_of_dropWhile after)
  rw [List.append_assoc, List.takeWhile_append_dropWhile, h.first] at hfirst
  have hnil : after.takeWhile isComparison = [] := by
    simpa using congrArg List.length (Option.some.inj hfirst)
  rwa [hnil, List.append_nil] at haround

theorem mem_operators_iff_isRun {params : String}
    (hstart : ∀ c ∈ (Located.ofString params).head?, ¬isComparison c)
    (hruns : ∀ run, IsRun (Located.ofString params) run → run.map Located.char ∈ alternatives)
    (run : List Located) : run ∈ operators params ↔ IsRun (Located.ofString params) run := by
  have hleftmost : Leftmost (Located.ofString params) (operators params) := leftmost_iff.2 rfl
  constructor
  · intro hmem
    obtain ⟨front, before, after, hparams, hmatch⟩ := hleftmost.mem hmem
    rw [hparams] at hruns ⊢
    exact hmatch.isRun hruns
  · intro hrun
    have htext := hruns run hrun
    obtain ⟨front, after, hparams, hne, hall, hbefore, hafter⟩ := hrun
    rcases List.eq_nil_or_concat' front with rfl | ⟨front, before, rfl⟩
    · obtain ⟨c, rest, rfl⟩ := List.exists_cons_of_ne_nil hne
      exact absurd (hall c List.mem_cons_self) (hstart c (by simp [hparams]))
    · have hnot : ¬isComparison before := hbefore before (by simp)
      have hangle : before.char ≠ '<' ∧ before.char ≠ '>' := by simp_all [isComparison]
      rw [List.append_assoc] at hparams
      exact hleftmost.mem_of_matchesAt hparams hnot ⟨hangle, find?_alternatives htext hafter⟩

/-! ## Byte by byte -/

section Bytes

open Cursor

/-- An operator with the offsets of its first byte and behind its last. -/
structure Token where
  text : String
  start : Nat
  stop : Nat
deriving DecidableEq

def token (operator : List Located) : Token :=
  ⟨Located.text operator, Located.startOf 0 operator, stopOf operator⟩

/-- The first operator that starts at byte `i` or behind it. -/
def nextToken (params : String) (i : Nat) : Checked Empty (Option Token) :=
  if i < params.utf8ByteSize then do
    let operator ← byte params i
    let preceding ← byte params (← subtract i 1)
    if (operator = '>' ∨ operator = '<' ∨ operator = '=') ∧
        ¬(preceding = '>' ∨ preceding = '<') then
      let length := if operator ≠ '=' ∧ byte? params (i + 1) = some '=' then 2 else 1
      let text ← cut params i (i + length)
      .ok (some ⟨text, i, i + length⟩)
    else nextToken params (i + 1)
  else .ok none
termination_by params.utf8ByteSize - i

/-- All operators behind byte `pos`, which is the first that may stand before one. -/
def tokens (params : String) (pos : Nat) : Checked Empty (List Token) := do
  match ← nextToken params (pos + 1) with
  | none => .ok []
  | some found =>
    let ⟨next, _⟩ ← onward params pos found.stop
    let later ← tokens params next
    .ok (found :: later)
termination_by params.utf8ByteSize - pos

def readOperators (params : String) : Checked Empty (List Token) :=
  tokens params 0

variable {params : String} {c d : Located} {cs rest : List Located}

/-- The byte before a character is the last of the character before it. -/
theorem byte?_before (h : c :: d :: rest <:+ Located.ofString params) :
    1 ≤ d.offset ∧ ∃ b, byte? params (d.offset - 1) = some b ∧ Alike b c.char := by
  have hoffset : d.offset = c.offset + c.char.utf8Size := spot_rest h
  have hpos := c.char.utf8Size_pos
  refine ⟨by omega, ?_⟩
  rw [show d.offset - 1 = c.offset + (c.char.utf8Size - 1) by omega]
  exact byte?_of_mem (h.subset List.mem_cons_self) (by omega)

theorem operator?_of_comparison (h : d.char = '>' ∨ d.char = '<' ∨ d.char = '=') :
    operator? (d :: rest) =
      some (if d.char ≠ '=' ∧ rest.head?.map Located.char = some '=' then d :: rest.take 1
        else [d]) := by
  cases rest with
  | nil => rcases h with h | h | h <;> simp [operator?, h]
  | cons e rest => rcases h with h | h | h <;> by_cases he : e.char = '=' <;> simp [operator?, h, he]

/-- An operator that starts at a character ends one or two bytes on, and the bytes up to there are its
text. -/
theorem exists_operator_of_comparison (h : d :: rest <:+ Located.ofString params)
    (hcomparison : d.char = '>' ∨ d.char = '<' ∨ d.char = '=') {length : Nat}
    (hlength : length = if d.char ≠ '=' ∧ byte? params (d.offset + 1) = some '=' then 2 else 1) :
    ∃ operator, operator? (d :: rest) = some operator ∧
      (cut params d.offset (d.offset + length) : Checked Empty String) =
        .ok (Located.text operator) ∧
      token operator = ⟨Located.text operator, d.offset, d.offset + length⟩ := by
  have hascii : d.char.toNat ≤ 127 := by rcases hcomparison with hd | hd | hd <;> simp [hd]
  simp only [byte?_second_eq_iff h hascii (show '='.toNat ≤ 127 by decide)] at hlength
  refine ⟨_, operator?_of_comparison hcomparison, ?_⟩
  by_cases hdouble : d.char ≠ '=' ∧ rest.head?.map Located.char = some '='
  · obtain ⟨e, after, rfl, he⟩ := exists_cons_of_head? hdouble.2
    have hstop := spot_rest_rest h hascii (by simp [he])
    have hcut := @cut_append Empty params [d, e] after h
    rw [List.cons_append, spot_cons, hstop] at hcut
    rw [if_pos hdouble] at hlength ⊢
    rw [hlength]
    refine ⟨hcut, ?_⟩
    rw [← hstop, spot_rest ((List.suffix_cons d _).trans h)]
    rfl
  · have hcut := @cut_append Empty params [d] rest h
    rw [List.cons_append, List.nil_append, spot_cons, spot_rest h, stop_eq_of_ascii hascii] at hcut
    rw [if_neg hdouble] at hlength ⊢
    rw [hlength]
    refine ⟨hcut, ?_⟩
    rw [← stop_eq_of_ascii hascii]
    rfl

/-- What is read where a character starts: the operator that starts there, if there is one and the
character before it allows it. -/
theorem nextToken_cons (h : c :: d :: rest <:+ Located.ofString params) :
    nextToken params d.offset =
      match if (c.char != '>' && c.char != '<') then operator? (d :: rest) else none with
      | some operator => .ok (some (token operator))
      | none => nextToken params (d.offset + 1) := by
  have hd : d :: rest <:+ Located.ofString params := (List.suffix_cons c _).trans h
  obtain ⟨b, hb, halike⟩ := byte?_cons hd
  obtain ⟨hpos, b', hb', halike'⟩ := byte?_before h
  have hfirst : ∀ k : Char, k.toNat ≤ 127 → (b = k ↔ d.char = k) := fun k => halike.eq_iff
  have hlast : ∀ k : Char, k.toNat ≤ 127 → (b' = k ↔ c.char = k) := fun k => halike'.eq_iff
  rw [nextToken, if_pos (lt_size_of_byte? hb), byte, hb, ok_bind, subtract_of_le hpos, ok_bind, byte,
    hb', ok_bind]
  simp only [hfirst '>' (by decide), hfirst '<' (by decide), hfirst '=' (by decide),
    hlast '>' (by decide), hlast '<' (by decide), ne_eq]
  by_cases hbefore : c.char = '>' ∨ c.char = '<'
  · rw [if_neg (fun hboth => hboth.2 hbefore), if_neg (by rcases hbefore with hc | hc <;> simp [hc])]
  rw [if_pos (show (c.char != '>' && c.char != '<') = true by simpa using hbefore)]
  by_cases hcomparison : d.char = '>' ∨ d.char = '<' ∨ d.char = '='
  · obtain ⟨operator, hoperator, hcut, htoken⟩ := exists_operator_of_comparison hd hcomparison rfl
    rw [if_pos ⟨hcomparison, hbefore⟩, hoperator, hcut, ok_bind, ← htoken]
  · have hnone : operator? (d :: rest) = none := by
      obtain ⟨hgt, hlt, heq⟩ := by simpa using hcomparison
      simp [operator?, hgt, hlt, heq]
    rw [if_neg fun hboth => hcomparison hboth.1, hnone]

theorem nextToken_of_le {i : Nat} (h : params.utf8ByteSize ≤ i) : nextToken params i = .ok none := by
  rw [nextToken, if_neg (Nat.not_lt_of_le h)]

/-- No operator starts at a byte inside a character. The first byte of the text is never asked for, as
none stands before it. -/
theorem glides_nextToken : Glides params fun i => nextToken params (max i 1) := by
  intro i b hb hlt
  rcases Nat.eq_zero_or_pos i with rfl | hpos
  · rfl
  have hi := lt_size_of_byte? hb
  obtain ⟨b', hb'⟩ := Option.ne_none_iff_exists'.1
    (mt byte?_eq_none_iff.1 (by omega : ¬params.utf8ByteSize ≤ i - 1))
  have hne : ∀ k : Char, k.toNat ≤ 127 → b ≠ k := fun k => ne_of_ascii hlt
  simp only [Nat.max_eq_left hpos, Nat.max_eq_left (Nat.le_add_left 1 i)]
  rw [nextToken, if_pos hi, byte, hb, ok_bind, subtract_of_le hpos, ok_bind, byte, hb', ok_bind,
    if_neg (by simp [hne])]

theorem nextToken_second (h : c :: rest <:+ Located.ofString params) :
    nextToken params (c.offset + 1) = nextToken params (spot params rest) := by
  have hglide := glides_nextToken.second_eq h
  have hpos : 1 ≤ spot params rest := (Nat.zero_le c.offset).trans_lt (lt_spot h List.suffix_rfl).1
  simpa only [Nat.max_eq_left hpos, Nat.max_eq_left (Nat.le_add_left 1 c.offset)] using hglide

/-- The search finds the first operator of the scan over characters, or there is none. -/
theorem nextToken_spot (h : c :: cs <:+ Located.ofString params) :
    (nextToken params (spot params cs) = .ok none ∧ scan (some c.char) 0 cs = []) ∨
      ∃ operator after, operator ++ after <:+ cs ∧ operator ≠ [] ∧
        nextToken params (spot params cs) = .ok (some (token operator)) ∧
        scan (some c.char) 0 cs = operator :: scan none 0 after := by
  induction cs generalizing c with
  | nil => exact .inl ⟨nextToken_of_le le_rfl, rfl⟩
  | cons d rest ih =>
    have hd : d :: rest <:+ Located.ofString params := (List.suffix_cons c _).trans h
    rw [spot_cons, nextToken_cons h]
    cases hhere : (if (c.char != '>' && c.char != '<') then operator? (d :: rest) else none) with
    | none =>
      have hscan : scan (some c.char) 0 (d :: rest) = scan (some d.char) 0 rest := by
        rw [scan, Option.any_some]
        simp only [hhere]
      rw [hscan, nextToken_second hd]
      rcases ih hd with hnone | ⟨operator, after, hsuffix, hfound⟩
      · exact .inl hnone
      · exact .inr ⟨operator, after, hsuffix.trans (List.suffix_cons d rest), hfound⟩
    | some operator =>
      obtain ⟨hbefore, hoperator⟩ : (c.char != '>' && c.char != '<') = true ∧
          operator? (d :: rest) = some operator := by
        split at hhere
        · next hbefore => exact ⟨hbefore, hhere⟩
        · cases hhere
      obtain ⟨after, hsplit, hfirst⟩ := operator?_eq_some_iff.1 hoperator
      have hmatch : MatchesAt c operator after := ⟨by simpa [and_comm] using hbefore, hfirst⟩
      refine .inr ⟨operator, after, hsplit ▸ List.suffix_rfl, hmatch.operator_ne_nil, rfl, ?_⟩
      rw [← scan_none_cons, hsplit, scan_of_matchesAt hmatch]

theorem stop_token {operator after : List Located} (hne : operator ≠ [])
    (h : operator ++ after <:+ Located.ofString params) :
    (token operator).stop = spot params after := by
  obtain ⟨front, hfront⟩ := h
  have hruns := Located.runs_ofString params
  rw [← hfront, ← List.append_assoc] at hruns
  rw [spot, hruns.of_append.2.startOf_eq, Nat.zero_add]
  exact stopOf_eq_size hne (by rw [← hfront, ← List.append_assoc])

/-- From the offset of any character on, the operators are those of the scan over characters. -/
theorem tokens_spot (h : cs <:+ Located.ofString params) :
    tokens params (spot params cs) = .ok ((scan none 0 cs).map token) := by
  induction hlen : cs.length using Nat.strong_induction_on generalizing cs with
  | _ n ih =>
  rw [tokens]
  cases cs with
  | nil =>
    rw [spot_nil, nextToken_of_le (Nat.le_succ _)]
    rfl
  | cons c rest =>
    rw [spot_cons, nextToken_second h, scan_none_cons]
    rcases nextToken_spot h with ⟨hnone, hscan⟩ | ⟨operator, after, hsuffix, hne, hfound, hscan⟩
    · rw [hnone, hscan]
      rfl
    · have hafter : after <:+ rest := (List.suffix_append operator after).trans hsuffix
      have hstop := stop_token hne (hsuffix.trans ((List.suffix_cons c rest).trans h))
      have hlt : after.length < n := hlen ▸ Nat.lt_succ_of_le hafter.length_le
      rw [hfound, ok_bind, hscan]
      simp only [hstop]
      rw [onward_of_lt (lt_spot h hafter), ok_bind,
        ih _ hlt (hafter.trans ((List.suffix_cons c rest).trans h)) rfl]
      rfl

theorem readOperators_eq (params : String) :
    readOperators params = .ok ((operators params).map token) := by
  have h := @tokens_spot params _ List.suffix_rfl
  rwa [spot_ofString] at h

end Bytes

/-! ## Exactness -/

/-- The operators found in the parameters of a media query are the leftmost matches that share no
character, each with its text and its place, in order. If the parameters do not start with a
comparison character and their runs of comparison characters are operators, these runs are what is
found. A search from byte to byte finds them all without a fault. -/
theorem operators_exact (params : String) :
    readOperators params = .ok ((operators params).map token) ∧
    (∀ found, Leftmost (Located.ofString params) found ↔ found = operators params) ∧
    (∀ operator ∈ operators params, ∃ before after,
      params = before ++ Located.text operator ++ after ∧
        Located.startOf 0 operator = before.utf8ByteSize ∧
        stopOf operator = before.utf8ByteSize + (Located.text operator).utf8ByteSize) ∧
    (operators params).Pairwise (fun a b => stopOf a < Located.startOf 0 b) ∧
    ((∀ c ∈ (Located.ofString params).head?, ¬isComparison c) →
      (∀ run, IsRun (Located.ofString params) run → run.map Located.char ∈ alternatives) →
      ∀ run, run ∈ operators params ↔ IsRun (Located.ofString params) run) := by
  refine ⟨readOperators_eq params, fun found => leftmost_iff, fun operator hoperator => ?_,
    (leftmost_iff.2 rfl).apart (Located.runs_ofString params), mem_operators_iff_isRun⟩
  obtain ⟨hne, front, back, hparams⟩ := mem_operators hoperator
  have hruns := hparams ▸ Located.runs_ofString params
  refine ⟨Located.text front, Located.text back, Located.eq_text_append hparams, ?_, ?_⟩
  · rw [startOf_eq hne hruns, Located.utf8ByteSize_text, Nat.zero_add]
  · rw [stopOf_eq_size hne hparams, Located.utf8ByteSize_text, Located.utf8ByteSize_text,
      Located.size_append]

-- A text does not start with an operator, and an angle keeps what follows it from being one.
example : operators ">=1px" = [] ∧ operators "(a>>b)" = [[⟨2, '>'⟩]] := by
  decide +kernel

/-- The `n` characters from place `i` on are a maximal run. -/
def isRunAt (cs : List Located) (i n : Nat) : Bool :=
  let run := (cs.drop i).take n
  !run.isEmpty && run.all isComparison && !(cs.take i).getLast?.any isComparison &&
    !(cs.drop (i + n)).head?.any isComparison

/-- The runs of a given text can be gone through. -/
theorem forall_isRun {cs : List Located} {p : List Located → Prop}
    (h : ∀ i ≤ cs.length, ∀ n ≤ cs.length, isRunAt cs i n → p ((cs.drop i).take n)) :
    ∀ run, IsRun cs run → p run := by
  rintro run ⟨before, after, rfl, hne, hall, hbefore, hafter⟩
  have hcut := h before.length (by simp) run.length (by simp; omega)
  simp only [isRunAt, ← List.drop_drop, List.drop_left, List.take_left] at hcut
  refine hcut ?_
  have hlast : before.getLast?.any isComparison = false := by
    simpa [Option.any_eq_false] using hbefore
  have hhead : after.head?.any isComparison = false := by
    simpa [Option.any_eq_false] using hafter
  simpa [hlast, hhead, hne] using hall

/-- Operators on both sides of a name of two bytes. -/
theorem operators_exact_sample :
    (∀ c ∈ (Located.ofString "(1px<=é<6px)").head?, ¬isComparison c) ∧
    (∀ run, IsRun (Located.ofString "(1px<=é<6px)") run → run.map Located.char ∈ alternatives) ∧
    readOperators "(1px<=é<6px)" = .ok [⟨"<=", 4, 6⟩, ⟨"<", 8, 9⟩] ∧
    ∀ run, IsRun (Located.ofString "(1px<=é<6px)") run ↔
      run ∈ [[⟨4, '<'⟩, ⟨5, '='⟩], [⟨8, '<'⟩]] := by
  have hstart : ∀ c ∈ (Located.ofString "(1px<=é<6px)").head?, ¬isComparison c := by
    decide +kernel
  have hruns : ∀ run, IsRun (Located.ofString "(1px<=é<6px)") run →
      run.map Located.char ∈ alternatives :=
    forall_isRun (by decide +kernel)
  have hfound : operators "(1px<=é<6px)" = [[⟨4, '<'⟩, ⟨5, '='⟩], [⟨8, '<'⟩]] := by
    decide +kernel
  refine ⟨hstart, hruns, ?_, fun run => ?_⟩
  · rw [(operators_exact _).1, hfound]
    rfl
  rw [← hfound]
  exact ((operators_exact _).2.2.2.2 hstart hruns run).symm

end SheetPolicy.RangeOperator
