import Mathlib
import SheetPolicy.Proofs.Units

/-!
What the readers of a statement pass over. One reader looks for the end of the statement
(`Prelude.skip`), another one leaves out the comments of what stands before it (`Excerpt.keep`).
`Prelude.skipUnits` and `Excerpt.keepUnits` are these readers with the units noted down that they go
over. Where no interpolation opens, both note the same units, and none of them reaches behind the end
of the statement (`Prelude.reads_of_skipUnits`, `Lexeme.Reads.keepUnits_eq`).
-/

namespace SheetPolicy

/-! ## Units one behind the other -/

namespace Lexeme

/-- The characters are read as these units, one behind the other, up to `tail`. -/
inductive Reads : List Located → List Lexeme → List Located → Prop
  | nil {tail : List Located} : Reads tail [] tail
  | cons {c : Located} {rest after tail : List Located} {l : Lexeme} {ls : List Lexeme} :
      next c rest = .ok (l, after) → Reads after ls tail → Reads (c :: rest) (l :: ls) tail

theorem Reads.append_eq {cs tail : List Located} {ls : List Lexeme} (h : Reads cs ls tail) :
    ls.flatMap chars ++ tail = cs := by
  induction h with
  | nil => rfl
  | cons hnext _ ih => rw [List.flatMap_cons, List.append_assoc, ih, next_append hnext]

/-- The place of a unit. -/
def span (l : Lexeme) : Span :=
  ⟨Located.startOf 0 l.chars, Located.startOf 0 l.chars + Located.size l.chars⟩

/-- The unit is a comment and the character stands in it. -/
def hides (l : Lexeme) (c : Located) : Bool :=
  l.kind == .comment && (l.span.start ≤ c.offset && c.offset < l.span.stop)

/-- A string or a comment that is passed over at once, by its place. -/
structure Skip where
  kind : Kind
  span : Span
deriving DecidableEq

/-- A unit, if it is a string or a comment. -/
def skip? (l : Lexeme) : Option Skip :=
  if l.kind = .quoted ∨ l.kind = .comment then some ⟨l.kind, l.span⟩ else none

end Lexeme

/-! ## The end of a statement -/

namespace Prelude

/-- An interpolation opens in the text. -/
def Interpolates (cs : List Located) : Prop :=
  ['#', '{'] <:+: cs.map Located.char ∨ ['@', '{'] <:+: cs.map Located.char

instance (cs : List Located) : Decidable (Interpolates cs) :=
  inferInstanceAs (Decidable (_ ∨ _))

theorem Interpolates.widen {cs ds : List Located} (h : Interpolates cs) (hpart : cs <:+: ds) :
    Interpolates ds :=
  h.imp (·.trans (hpart.map Located.char)) (·.trans (hpart.map Located.char))

/-- An interpolation that is gone over stands in the text with the marks that open it. -/
theorem exists_afterInterpolation {c : Located} {rest : List Located}
    (h : opensInterpolation c.char rest = true) :
    ∃ body, rest = body ++ afterInterpolation rest ∧ Interpolates (c :: body) := by
  obtain ⟨hc, hhead⟩ : (c.char = '#' ∨ c.char = '@') ∧ rest.head?.map Located.char = some '{' := by
    simpa [opensInterpolation] using h
  cases rest with
  | nil => simp at hhead
  | cons brace rest =>
    have hbrace : brace.char = '{' := by simpa using hhead
    have hsuffix : afterInterpolation (brace :: rest) <:+ rest := by
      rw [afterInterpolation, List.dropWhile_cons_of_pos (by simp [hbrace])]
      exact (List.tail_suffix _).trans (List.dropWhile_suffix _)
    obtain ⟨body, hbody⟩ := hsuffix
    refine ⟨brace :: body, by rw [List.cons_append, hbody], ?_⟩
    have hopens : [c.char, '{'] <:+: (c :: brace :: body).map Located.char :=
      ⟨[], body.map Located.char, by simp [hbrace]⟩
    rcases hc with hc | hc
    · exact .inl (hc ▸ hopens)
    · exact .inr (hc ▸ hopens)

/-- Goes on from the statement's end like `skip`: the units that are passed over, and what is
left. -/
def skipUnits (depth : Nat) : List Located → Except ParseError (List Lexeme × List Located)
  | [] => .ok ([], [])
  | c :: rest =>
    if depth = 0 ∧ isTerminator c.char then .ok ([], c :: rest)
    else if opensInterpolation c.char rest then skipUnits depth (afterInterpolation rest)
    else
      match h : Lexeme.next c rest with
      | .error e => .error e
      | .ok (l, after) =>
        have := Lexeme.length_next h
        (skipUnits (if l.kind = .plain then depthAfter depth c.char else depth) after).map
          fun (ls, stop) => (l :: ls, stop)
termination_by cs => cs.length
decreasing_by
  · exact Nat.lt_succ_of_le (length_afterInterpolation rest)
  · exact Nat.lt_succ_of_le this

theorem skipUnits_cons {depth : Nat} {c : Located} {rest : List Located}
    (hend : ¬(depth = 0 ∧ isTerminator c.char = true))
    (hinter : ¬opensInterpolation c.char rest = true) :
    skipUnits depth (c :: rest) = Lexeme.next c rest >>= fun p =>
      (skipUnits (if p.1.kind = .plain then depthAfter depth c.char else depth) p.2).map
        fun (ls, stop) => (p.1 :: ls, stop) := by
  rw [skipUnits, if_neg hend, if_neg hinter]
  split
  · next e hnext => rw [hnext]; rfl
  · next l after hnext => simp only [hnext]; rfl

/-- Noting the units down changes nothing else. -/
theorem skip_eq_map_skipUnits (depth : Nat) (cs : List Located) :
    skip depth cs = (skipUnits depth cs).map Prod.snd := by
  fun_induction skip depth cs with
  | case1 => rw [skipUnits]; rfl
  | case2 depth c rest hend => rw [skipUnits, if_pos hend]; rfl
  | case3 depth c rest hend hinter ih => rw [skipUnits, if_neg hend, if_pos hinter, ih]
  | case4 depth c rest hend hinter e hnext => rw [skipUnits_cons hend hinter, hnext]; rfl
  | case5 depth c rest hend hinter l after hnext _ hkind ih =>
    rw [skipUnits_cons hend hinter, hnext, ih]
    simp only [bind, Except.bind, hkind, if_true]
    cases skipUnits (depthAfter depth c.char) after <;> rfl
  | case6 depth c rest hend hinter l after hnext _ hkind ih =>
    rw [skipUnits_cons hend hinter, hnext, ih]
    simp only [bind, Except.bind, hkind, if_false]
    cases skipUnits depth after <;> rfl

theorem exists_skipUnits {depth : Nat} {cs tail : List Located} (h : skip depth cs = .ok tail) :
    ∃ ls, skipUnits depth cs = .ok (ls, tail) := by
  rw [skip_eq_map_skipUnits] at h
  cases hunits : skipUnits depth cs with
  | error e => simp [hunits, Except.map] at h
  | ok p =>
    obtain rfl : p.2 = tail := by simpa [hunits, Except.map] using h
    exact ⟨p.1, rfl⟩

/-- Where no interpolation opens, the statement is read unit by unit. -/
theorem reads_of_skipUnits {depth : Nat} {cs tail : List Located} {ls : List Lexeme}
    (h : skipUnits depth cs = .ok (ls, tail))
    (hplain : ∀ taken, taken ++ tail = cs → ¬Interpolates taken) : Lexeme.Reads cs ls tail := by
  fun_induction skipUnits depth cs generalizing ls with
  | case1 =>
    obtain ⟨rfl, rfl⟩ := by simpa using h
    exact .nil
  | case2 =>
    obtain ⟨rfl, rfl⟩ := by simpa using h
    exact .nil
  | case3 depth c rest hend hinter ih =>
    have htail : tail <:+ afterInterpolation rest :=
      skip_suffix (by rw [skip_eq_map_skipUnits, h]; rfl)
    obtain ⟨body, hbody, hopens⟩ := exists_afterInterpolation hinter
    obtain ⟨more, hmore⟩ := htail
    have htaken : c :: body ++ more ++ tail = c :: rest := by
      rw [List.append_assoc, hmore, List.cons_append, ← hbody]
    exact absurd (hopens.widen (List.prefix_append _ more).isInfix) (hplain _ htaken)
  | case4 => simp at h
  | case5 depth c rest hend hinter l after hnext _ ih =>
    cases hmore : skipUnits (if l.kind = .plain then depthAfter depth c.char else depth) after with
    | error e => simp [hmore, Except.map] at h
    | ok p =>
    obtain ⟨rfl, rfl⟩ : l :: p.1 = ls ∧ p.2 = tail := by simpa [hmore, Except.map] using h
    refine .cons hnext (ih hmore fun taken htaken hopens => ?_)
    have hcons : l.chars ++ taken ++ p.2 = c :: rest := by
      rw [List.append_assoc, htaken, Lexeme.next_append hnext]
    exact hplain _ hcons (hopens.widen (List.suffix_append l.chars taken).isInfix)

end Prelude

/-! ## What is kept of a statement -/

namespace Excerpt

/-- Goes over the characters before `stop` like `keep`: the units that are read. -/
def keepUnits (stop : Nat) : List Located → Except ParseError (List Lexeme)
  | [] => .ok []
  | c :: rest =>
    if c.offset < stop then
      match h : Lexeme.next c rest with
      | .error e => .error e
      | .ok (l, after) =>
        have := Lexeme.length_next h
        (keepUnits stop after).map (l :: ·)
    else .ok []
termination_by cs => cs.length
decreasing_by exact Nat.lt_succ_of_le this

theorem keep_cons {stop : Nat} {c : Located} {rest : List Located} (hlt : c.offset < stop) :
    keep stop (c :: rest) = Lexeme.next c rest >>= fun p =>
      (keep stop p.2).map fun more =>
        if p.1.kind = .comment then more
        else p.1.chars.filter (fun d => d.offset < stop) ++ more := by
  rw [keep, if_pos hlt]
  split
  · next e hnext => rw [hnext]; rfl
  · next l after hnext =>
    simp only [hnext, bind, Except.bind]
    cases keep stop after with
    | error e => rfl
    | ok more =>
      simp only [Except.map]
      split <;> rfl

theorem keepUnits_cons {stop : Nat} {c : Located} {rest : List Located} (hlt : c.offset < stop) :
    keepUnits stop (c :: rest) =
      Lexeme.next c rest >>= fun p => (keepUnits stop p.2).map (p.1 :: ·) := by
  rw [keepUnits, if_pos hlt]
  split
  · next e hnext => rw [hnext]; rfl
  · next l after hnext => simp only [hnext]; rfl

/-- Noting the units down changes nothing else. -/
theorem keep_eq_map_keepUnits (stop : Nat) (cs : List Located) :
    keep stop cs = (keepUnits stop cs).map fun ls =>
      (ls.flatMap Lexeme.kept).filter fun c => c.offset < stop := by
  fun_induction keepUnits stop cs with
  | case1 => rw [keep]; rfl
  | case2 c rest hlt e hnext => rw [keep_cons hlt, hnext]; rfl
  | case3 c rest hlt l after hnext _ ih =>
    simp only [keep_cons hlt, hnext, bind, Except.bind, ih]
    cases keepUnits stop after with
    | error e => rfl
    | ok ls =>
      by_cases hkind : l.kind = .comment
      · simp [Except.map, Lexeme.kept, hkind]
      · simp [Except.map, Lexeme.kept, hkind]
  | case4 c rest hpast => rw [keep, if_neg hpast]; rfl

end Excerpt

namespace Lexeme

namespace Reads

variable {size : Nat} {cs tail : List Located} {ls : List Lexeme}

/-- Up to where the units end, the excerpt reads them. -/
theorem keepUnits_eq (h : Reads cs ls tail) (hrising : Located.Rising size cs) :
    Excerpt.keepUnits (Located.startOf size tail) cs = .ok ls := by
  induction h with
  | @nil tail =>
    cases tail with
    | nil => rw [Excerpt.keepUnits]
    | cons t rest => rw [Excerpt.keepUnits, if_neg (by simp)]
  | @cons c rest after tail l ls hnext hreads ih =>
    have hcs : l.chars ++ ls.flatMap chars ++ tail = c :: rest := by
      rw [List.append_assoc, hreads.append_eq, next_append hnext]
    have hlt : c.offset < Located.startOf size tail := by
      rw [← hcs] at hrising
      refine hrising.lt_startOf (List.mem_append_left _ ?_)
      obtain ⟨body, hbody, _⟩ := next_eq_cons hnext
      simp [hbody]
    have hafter : Located.Rising size after :=
      hrising.suffix ⟨l.chars, next_append hnext⟩
    rw [Excerpt.keepUnits_cons hlt, hnext]
    simp only [bind, Except.bind, ih hafter]
    rfl

/-- Of the units all is kept but the comments. -/
theorem keep_eq (h : Reads cs ls tail) (hrising : Located.Rising size cs) :
    Excerpt.keep (Located.startOf size tail) cs = .ok (ls.flatMap kept) := by
  rw [Excerpt.keep_eq_map_keepUnits, h.keepUnits_eq hrising, Except.map, Except.ok.injEq]
  refine List.filter_eq_self.2 fun c hc => ?_
  rw [← h.append_eq] at hrising
  simpa using hrising.lt_startOf ((flatMap_kept_sublist ls).subset hc)

end Reads

section Places

variable {start stop : Nat} {c : Located} {rest after cs tail : List Located} {l : Lexeme}
  {ls : List Lexeme}

/-- A unit starts where its characters do and ends where the next one starts. -/
theorem runs_next (hnext : next c rest = .ok (l, after)) (h : Located.Runs start (c :: rest) stop) :
    l.span.start = start ∧ start < l.span.stop ∧ Located.Runs start l.chars l.span.stop ∧
      Located.Runs l.span.stop after stop := by
  obtain ⟨body, hbody, _⟩ := next_eq_cons hnext
  have hstart : l.span.start = start := by
    rw [span, hbody]
    exact h.1
  have hpos := Located.size_pos (show l.chars ≠ [] by simp [hbody])
  rw [← next_append hnext] at h
  have hstop : l.span.stop = start + Located.size l.chars := by rw [← hstart]; rfl
  rw [hstop]
  exact ⟨hstart, by omega, h.of_append⟩

theorem Reads.runs (h : Reads cs ls tail) (hruns : Located.Runs start cs stop) :
    Located.Runs start (ls.flatMap chars) (Located.startOf stop tail) := by
  rw [← h.append_eq] at hruns
  obtain ⟨hfront, htail⟩ := hruns.of_append
  rwa [htail.startOf_eq]

/-- Every unit ends at or before the place where the reading stops. -/
theorem Reads.within (h : Reads cs ls tail) (hruns : Located.Runs start cs stop) {m : Lexeme}
    (hm : m ∈ ls) :
    start ≤ m.span.start ∧ m.span.start < m.span.stop ∧
      m.span.stop ≤ Located.startOf stop tail := by
  induction h generalizing start with
  | nil => simp at hm
  | @cons c rest after tail l ls hnext hreads ih =>
    obtain ⟨hstart, hpos, _, hafter⟩ := runs_next hnext hruns
    rcases List.mem_cons.1 hm with rfl | hm
    · have hle := (hreads.runs hafter).le
      omega
    · have hlater := ih hafter hm
      omega

/-- What stands in no comment is kept. -/
theorem Reads.filter_hides (h : Reads cs ls tail) (hruns : Located.Runs start cs stop) :
    ((ls.flatMap chars).filter fun c => !ls.any (hides · c)) = ls.flatMap kept := by
  induction h generalizing start with
  | nil => rfl
  | @cons c rest after tail l ls hnext hreads ih =>
    obtain ⟨hstart, hpos, hunit, hafter⟩ := runs_next hnext hruns
    -- Of the unit's own characters none stands in a later unit, and of the later ones none in it.
    have hown : ∀ d ∈ l.chars, (l :: ls).any (hides · d) = decide (l.kind = .comment) := by
      intro d hd
      have hplace := hunit.offset_mem hd
      have hlt := d.offset_lt_stop
      have hlater : ls.any (hides · d) = false := by
        refine List.any_eq_false.2 fun m hm => ?_
        have hwithin := hreads.within hafter hm
        simp only [hides, Bool.and_eq_true, decide_eq_true_eq]
        omega
      have hin : decide (l.span.start ≤ d.offset) && decide (d.offset < l.span.stop) := by
        simp only [Bool.and_eq_true, decide_eq_true_eq]
        omega
      rw [List.any_cons, hlater, Bool.or_false, hides, hin, Bool.and_true]
      exact beq_eq_decide _ _
    have hrest : ∀ d ∈ ls.flatMap chars, (l :: ls).any (hides · d) = ls.any (hides · d) := by
      intro d hd
      have hplace := (hreads.runs hafter).offset_mem hd
      rw [List.any_cons, hides, decide_eq_false (p := d.offset < l.span.stop) (by omega),
        Bool.and_false, Bool.and_false, Bool.false_or]
    rw [List.flatMap_cons, List.flatMap_cons, List.filter_append, ← ih hafter,
      List.filter_congr fun d hd => congrArg not (hown d hd),
      List.filter_congr fun d hd => congrArg not (hrest d hd)]
    by_cases hkind : l.kind = .comment
    · simp [kept, hkind]
    · simp [kept, hkind]

end Places

end Lexeme

end SheetPolicy
