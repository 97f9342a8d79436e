import Mathlib
import SheetPolicy.Proofs.Insertion

/-!
Why a source is no stylesheet. A statement cannot be taken if a string or a comment in it is never
closed, or if it is a mere word (`Event.ofStart_eq_error`). A reading stops there, at a brace that
closes nothing, or at the end with a block still open. How it came there is told by whole nodes
(`Event.Crosses`) and by the blocks entered and not left (`Event.Reaches`), so that an error names
the text to blame (`Event.blames_of_parse`).
-/

namespace SheetPolicy

/-! ## Strings and comments that are never closed -/

namespace Lexeme

/-- A string or a comment starts here and is never closed. A quote that might close the string is
taken along by a backslash. -/
inductive Unclosed : List Located → ParseError → Prop
  | quoted {c : Located} {rest : List Located} :
      c.char = '"' ∨ c.char = '\'' →
      (∀ inner d after, rest = inner ++ d :: after → d.char = c.char → dangles inner = true) →
      Unclosed (c :: rest) (.unclosedString c.offset)
  | comment {c star : Located} {rest : List Located} :
      c.char = '/' → star.char = '*' → ¬['*', '/'] <:+: rest.map Located.char →
      Unclosed (c :: star :: rest) (.unclosedComment c.offset)

/-- Some part at the end starts with a string or a comment that is never closed. -/
def UnclosedIn (cs : List Located) (e : ParseError) : Prop :=
  ∃ tail, tail <:+ cs ∧ Unclosed tail e

theorem UnclosedIn.suffix {cs all : List Located} {e : ParseError} (h : UnclosedIn cs e)
    (hall : cs <:+ all) : UnclosedIn all e := by
  obtain ⟨tail, htail, hunclosed⟩ := h
  exact ⟨tail, htail.trans hall, hunclosed⟩

theorem unclosed_of_closeString {c : Located} {rest : List Located}
    (hc : c.char = '"' ∨ c.char = '\'') (h : closeString c.char rest = none) :
    Unclosed (c :: rest) (.unclosedString c.offset) := by
  refine .quoted hc fun inner d after hrest hd => ?_
  by_contra hdangles
  rw [Bool.not_eq_true] at hdangles
  have hclosed : (closeString c.char (d :: after)).isSome = true := by
    rw [closeString.eq_def]
    simp [hd]
  have hsome := (isSome_closeString_append hdangles (d :: after)).2 (.inr hclosed)
  rw [← hrest, h] at hsome
  cases hsome

theorem unclosed_of_closeComment {c star : Located} {rest : List Located} (hc : c.char = '/')
    (hstar : star.char = '*') (h : closeComment rest = none) :
    Unclosed (c :: star :: rest) (.unclosedComment c.offset) := by
  refine .comment hc hstar fun hmark => ?_
  have hsome := isSome_closeComment.2 hmark
  rw [h] at hsome
  cases hsome

theorem next_eq_error {c : Located} {rest : List Located} {e : ParseError}
    (h : next c rest = .error e) : Unclosed (c :: rest) e := by
  unfold next at h
  split at h
  · cases rest <;> cases h
  · split at h
    · rename_i hquote
      split at h
      · cases h
      · rename_i hnone
        cases h
        exact unclosed_of_closeString hquote hnone
    · split at h
      · cases h
      · rename_i d rest
        split at h
        · rename_i hmark
          split at h
          · cases h
          · rename_i hnone
            cases h
            exact unclosed_of_closeComment hmark.1 hmark.2 hnone
        · cases h

end Lexeme

theorem Prelude.skip_eq_error {depth : Nat} {cs : List Located} {e : ParseError}
    (h : skip depth cs = .error e) : Lexeme.UnclosedIn cs e := by
  fun_induction skip depth cs with
  | case1 => cases h
  | case2 => cases h
  | case3 depth c rest _ _ ih =>
    exact (ih h).suffix ((List.tail_suffix _).trans
      ((List.dropWhile_suffix _).trans (List.suffix_cons c rest)))
  | case4 depth c rest _ _ e' hnext =>
    cases h
    exact ⟨_, List.suffix_rfl, Lexeme.next_eq_error hnext⟩
  | case5 depth c rest _ _ l after hnext _ _ ih | case6 depth c rest _ _ l after hnext _ _ ih =>
    obtain ⟨body, _, hrest⟩ := Lexeme.next_eq_cons hnext
    exact (ih h).suffix ((hrest ▸ List.suffix_append body after).trans (List.suffix_cons c rest))

theorem Excerpt.keep_eq_error {stop : Nat} {cs : List Located} {e : ParseError}
    (h : keep stop cs = .error e) : Lexeme.UnclosedIn cs e := by
  fun_induction keep stop cs with
  | case1 => cases h
  | case2 c rest _ e' hnext =>
    cases h
    exact ⟨_, List.suffix_rfl, Lexeme.next_eq_error hnext⟩
  | case3 c rest _ l after hnext _ e' hkeep ih =>
    obtain ⟨body, _, hrest⟩ := Lexeme.next_eq_cons hnext
    cases h
    exact (ih hkeep).suffix
      ((hrest ▸ List.suffix_append body after).trans (List.suffix_cons c rest))
  | case4 => cases h
  | case5 => cases h
  | case6 => cases h

theorem Excerpt.cut_eq_error {stop : Nat} {cs : List Located} {e : ParseError}
    (h : cut cs stop = .error e) : Lexeme.UnclosedIn cs e := by
  unfold cut at h
  cases hkeep : keep stop cs with
  | error e' =>
    rw [hkeep] at h
    cases h
    exact keep_eq_error hkeep
  | ok kept =>
    rw [hkeep] at h
    cases h

namespace Event

/-! ## Statements that cannot be taken -/

theorem bind_error {ε α β : Type} {x : Except ε α} {f : α → Except ε β} {e : ε}
    (h : (x >>= f) = .error e) : x = .error e ∨ ∃ a, x = .ok a ∧ f a = .error e := by
  cases x with
  | error e' =>
    obtain rfl : e' = e := by simpa [bind, Except.bind] using h
    exact .inl rfl
  | ok a => exact .inr ⟨a, rfl, h⟩

/-- The statement ends without a block and its text, which has no colon, is this word. -/
structure IsWord (taken stop : List Located) (word : List Located) : Prop where
  starts : StartsStatement (taken ++ stop)
  ends : Prelude.Skips 0 (taken ++ stop) stop
  blockless : Located.headChar stop ≠ some '{'
  trimmed : word = Text.dropRightWhile (fun c => Text.isBlank c.char) taken
  free : ∀ c ∈ word, c.char ≠ ':'

/-- Why the statement at the front of some characters cannot be taken. -/
inductive Fails (size : Nat) : List Located → ParseError → Prop
  | unclosed {cs : List Located} {e : ParseError} : Lexeme.UnclosedIn cs e → Fails size cs e
  | word {taken stop word : List Located} : IsWord taken stop word →
      Fails size (taken ++ stop)
        (.unknownWord (Located.startOf size (taken ++ stop)) (Located.text word))

theorem declaration_eq_error {size start : Nat} {taken tail : List Located} {e : ParseError}
    (hrising : Located.Rising size (taken ++ tail))
    (h : declaration start (taken ++ tail) (Located.startOf size tail) = .error e) :
    Lexeme.UnclosedIn (taken ++ tail) e ∨
      ∃ word, word = Text.dropRightWhile (fun c => Text.isBlank c.char) taken ∧
        (∀ c ∈ word, c.char ≠ ':') ∧ e = .unknownWord start (Located.text word) := by
  simp only [declaration, takeWhile_lt_startOf hrising] at h
  split at h
  · rename_i hnone
    cases h
    exact .inr ⟨_, rfl, fun c hc => by simpa using List.find?_eq_none.1 hnone c hc, rfl⟩
  · left
    rcases bind_error h with h | ⟨prop, _, h⟩
    · exact Excerpt.cut_eq_error h
    · rcases bind_error h with h | ⟨value, _, h⟩
      · exact (Excerpt.cut_eq_error h).suffix (List.dropWhile_suffix _)
      · cases h

theorem ofComment_eq_error {size : Nat} {c star : Located} {rest : List Located} {e : ParseError}
    (hc : c.char = '/') (hstar : star.char = '*')
    (h : ofComment size c (star :: rest) = .error e) : Lexeme.UnclosedIn (c :: star :: rest) e := by
  unfold ofComment at h
  split at h
  · rename_i hnone
    cases h
    exact ⟨_, List.suffix_rfl, Lexeme.unclosed_of_closeComment hc hstar hnone⟩
  · cases h

theorem ofAtRule_eq_error {size : Nat} {c : Located} {rest : List Located} {e : ParseError}
    (h : ofAtRule size c rest = .error e) : Lexeme.UnclosedIn (c :: rest) e := by
  have htail : (rest.dropWhile fun d => isNameChar d.char) <:+ c :: rest :=
    (List.dropWhile_suffix _).trans (List.suffix_cons c rest)
  unfold ofAtRule at h
  rcases bind_error h with h | ⟨stop, _, h⟩
  · exact (Prelude.skip_eq_error h).suffix htail
  · rcases bind_error h with h | ⟨params, _, h⟩
    · exact (Excerpt.cut_eq_error h).suffix htail
    · cases stop with
      | nil => cases h
      | cons t after =>
        dsimp only at h
        split at h
        · cases h
        · split at h <;> cases h

theorem ofStatement_eq_error {size : Nat} {c : Located} {rest : List Located} {e : ParseError}
    (hrising : Located.Rising size (c :: rest)) (hstart : StartsStatement (c :: rest))
    (h : ofStatement size c rest = .error e) : Fails size (c :: rest) e := by
  unfold ofStatement at h
  rcases bind_error h with h | ⟨stop, hstop, h⟩
  · exact .unclosed (Prelude.skip_eq_error h)
  · obtain ⟨taken, htaken⟩ := Prelude.skip_suffix hstop
    have hoffset : Located.startOf size (taken ++ stop) = c.offset := by
      rw [htaken]
      rfl
    rw [← htaken] at hrising hstart hstop h ⊢
    -- Without a block at its end the statement is read as a declaration.
    have hword : Located.headChar stop ≠ some '{' →
        declaration c.offset (taken ++ stop) (Located.startOf size stop) = .error e →
          Fails size (taken ++ stop) e := by
      intro hopen hdecl
      rcases declaration_eq_error hrising hdecl with hunclosed | ⟨word, hword, hfree, rfl⟩
      · exact .unclosed hunclosed
      · rw [← hoffset]
        exact .word ⟨hstart, Prelude.skip_eq_ok_iff.1 hstop, hopen, hword, hfree⟩
    cases stop with
    | nil =>
      rcases bind_error h with h | ⟨decl, _, h⟩
      · exact hword (by simp) h
      · cases h
    | cons t after =>
      dsimp only at h
      split at h
      · rcases bind_error h with h | ⟨selector, _, h⟩
        · exact .unclosed (Excerpt.cut_eq_error h)
        · cases h
      · rename_i ht
        rcases bind_error h with h | ⟨decl, _, h⟩
        · exact hword (by simpa using ht) h
        · cases h

theorem ofStart_eq_error {size : Nat} {c : Located} {rest : List Located} {e : ParseError}
    (hrising : Located.Rising size (c :: rest)) (h : ofStart size c rest = .error e) :
    Fails size (c :: rest) e := by
  unfold ofStart at h
  split at h
  · exact .unclosed (ofAtRule_eq_error h)
  · rename_i hat
    split at h
    · rename_i hmark
      cases rest with
      | nil => simp at hmark
      | cons star rest => exact .unclosed (ofComment_eq_error hmark.1 (by simpa using hmark.2) h)
    · rename_i hmark
      exact ofStatement_eq_error hrising ⟨hat, hmark⟩ h

/-! ## How far a reading comes -/

/-- From the first list one comes to the second over blanks, semicolons and whole nodes. -/
inductive Crosses (size : Nat) : List Located → List Located → Prop
  | refl {cs : List Located} : Crosses size cs cs
  | filler {c : Located} {rest tail : List Located} :
      IsFiller c → Crosses size rest tail → Crosses size (c :: rest) tail
  | leaf {cs next tail : List Located} {node : Node} :
      StartsNode cs → Takes size cs (.leaf node) next → Crosses size next tail →
      Crosses size cs tail
  | block {close : Located} {cs inner outer tail : List Located} {start brace : Nat}
      {head : Head} :
      StartsNode cs → Takes size cs (.opens start brace head) inner →
      Crosses size inner (close :: outer) → close.char = '}' → Crosses size outer tail →
      Crosses size cs tail

/-- From the first list one comes to the second when the blocks of the braces, innermost first,
have been entered and not left: each by a statement that opens it, and then over whole nodes. -/
def Reaches (size : Nat) (cs : List Located) : List Nat → List Located → Prop
  | [], tail => Crosses size cs tail
  | brace :: outer, tail => ∃ here start head inner, Reaches size cs outer here ∧ StartsNode here ∧
      Takes size here (.opens start brace head) inner ∧ Crosses size inner tail

section Reading

variable {size : Nat} {cs here next tail : List Located} {braces : List Nat}

theorem Crosses.trans (h : Crosses size cs here) (hnext : Crosses size here next) :
    Crosses size cs next := by
  induction h with
  | refl => exact hnext
  | filler hfill _ ih => exact .filler hfill (ih hnext)
  | leaf hstart htakes _ ih => exact .leaf hstart htakes (ih hnext)
  | block hstart htakes hbody hclose _ _ ih => exact .block hstart htakes hbody hclose (ih hnext)

theorem Crosses.suffix (h : Crosses size cs tail) : tail <:+ cs := by
  induction h with
  | refl => exact List.suffix_rfl
  | filler _ _ ih => exact ih.trans (List.suffix_cons _ _)
  | leaf _ htakes _ ih => exact ih.trans htakes.suffix
  | block _ htakes _ _ _ ihbody ih =>
    exact ih.trans ((List.suffix_cons _ _).trans (ihbody.trans htakes.suffix))

theorem Reaches.suffix (h : Reaches size cs braces tail) : tail <:+ cs := by
  induction braces generalizing tail with
  | nil => exact Crosses.suffix h
  | cons brace outer ih =>
    obtain ⟨here, start, head, inner, hhere, _, htakes, hcross⟩ := h
    exact hcross.suffix.trans (htakes.suffix.trans (ih hhere))

theorem Reaches.cross (h : Reaches size cs braces here) (hcross : Crosses size here tail) :
    Reaches size cs braces tail := by
  cases braces with
  | nil => exact Crosses.trans h hcross
  | cons brace outer =>
    obtain ⟨above, start, head, inner, habove, hstart, htakes, hinner⟩ := h
    exact ⟨above, start, head, inner, habove, hstart, htakes, hinner.trans hcross⟩

/-- The brace that closes the innermost block leads on from the block. -/
theorem Reaches.leave {brace : Nat} {close : Located} {rest : List Located}
    (h : Reaches size cs (brace :: braces) (close :: rest)) (hclose : close.char = '}') :
    Reaches size cs braces rest := by
  obtain ⟨here, start, head, inner, hhere, hstart, htakes, hinner⟩ := h
  exact hhere.cross (.block hstart htakes hinner hclose .refl)

theorem Takes.brace {start brace : Nat} {head : Head} {inner : List Located}
    (h : Takes size cs (.opens start brace head) inner) :
    ∃ b ∈ cs, b.char = '{' ∧ b.offset = brace := by
  cases h with
  | @atRule c name taken stop _ params _ _ _ _ _ _ hend =>
    cases stop with
    | nil => cases hend
    | cons t after =>
      rw [atRuleEnd] at hend
      split at hend
      · rename_i ht
        cases hend
        exact ⟨t, by simp, ht, rfl⟩
      · split at hend <;> cases hend
  | @rule taken _ t selector _ ht _ _ => exact ⟨t, by simp, ht, rfl⟩

/-- A statement that can be taken leads on, into the block that it opens if it opens one. -/
theorem Reaches.step {c : Located} {rest after : List Located} {event : Event}
    (h : Reaches size cs braces (c :: rest)) (hrising : Located.Rising size cs)
    (hstart : StartsNode (c :: rest)) (hevent : ofStart size c rest = .ok (event, after)) :
    Reaches size cs (event.openAfter braces) after := by
  have htakes := (ofStart_eq_ok_iff (hrising.suffix h.suffix)).1 hevent
  cases event with
  | opens start brace head => exact ⟨_, start, head, after, h, hstart, htakes, .refl⟩
  | closes stop => exact (ofStart_ne_closes hevent).elim
  | leaf node => exact h.cross (.leaf hstart htakes .refl)

theorem Reaches.brace {brace : Nat} (h : Reaches size cs (brace :: braces) tail) :
    ∃ b ∈ cs, b.char = '{' ∧ b.offset = brace := by
  obtain ⟨here, start, head, inner, hhere, _, htakes, _⟩ := h
  obtain ⟨b, hb, hchar, hoffset⟩ := htakes.brace
  exact ⟨b, hhere.suffix.subset hb, hchar, hoffset⟩

end Reading

/-! ## What an error blames -/

/-- The text that an error blames, and how a reading of the whole text comes there. -/
inductive Blames (size : Nat) (cs : List Located) : ParseError → Prop
  /-- The innermost block that is still open at the end. -/
  | unclosedBlock {brace : Located} {outer : List Nat} : brace ∈ cs → brace.char = '{' →
      Reaches size cs (brace.offset :: outer) [] → Blames size cs (.unclosedBlock brace.offset)
  | unclosed {tail : List Located} {e : ParseError} : tail <:+ cs → Lexeme.Unclosed tail e →
      Blames size cs e
  /-- A closing brace that is met when no block is open. -/
  | unexpectedClose {close : Located} {rest : List Located} : Reaches size cs [] (close :: rest) →
      close.char = '}' → Blames size cs (.unexpectedClose close.offset)
  | unknownWord {braces : List Nat} {taken stop word : List Located} :
      Reaches size cs braces (taken ++ stop) → StartsNode (taken ++ stop) →
      IsWord taken stop word →
      Blames size cs (.unknownWord (Located.startOf size (taken ++ stop)) (Located.text word))

theorem Fails.blames {size : Nat} {all cs : List Located} {braces : List Nat} {e : ParseError}
    (h : Fails size cs e) (hreach : Reaches size all braces cs) (hstart : StartsNode cs) :
    Blames size all e := by
  cases h with
  | unclosed hunclosed =>
    obtain ⟨tail, htail, hunclosed⟩ := hunclosed
    exact .unclosed (htail.trans hreach.suffix) hunclosed
  | word hword => exact .unknownWord hreach hstart hword

theorem scan_eq_error {size : Nat} {all cs : List Located} {braces : List Nat} {e : ParseError}
    (hrising : Located.Rising size all) (hreach : Reaches size all braces cs)
    (h : scan size braces cs = .error e) : Blames size all e := by
  fun_induction scan size braces cs with
  | case1 => cases h
  | case2 brace outer =>
    cases h
    obtain ⟨b, hb, hchar, rfl⟩ := hreach.brace
    exact .unclosedBlock hb hchar hreach
  | case3 braces c rest hfill ih => exact ih (hreach.cross (.filler hfill .refl)) h
  | case4 c rest hfill hclose =>
    cases h
    exact .unexpectedClose hreach hclose
  | case5 c rest hfill hclose brace outer e' hscan ih =>
    cases h
    exact ih (hreach.leave hclose) hscan
  | case6 => cases h
  | case7 braces c rest hfill hclose e' hstart =>
    cases h
    exact (ofStart_eq_error (hrising.suffix hreach.suffix) hstart).blames hreach ⟨hfill, hclose⟩
  | case8 braces c rest hfill hclose event after hstart _ e' hscan ih =>
    cases h
    exact ih (hreach.step hrising ⟨hfill, hclose⟩ hstart) hscan
  | case9 => cases h

theorem Blames.isCut {size : Nat} {cs : List Located} {e : ParseError} (h : Blames size cs e) :
    Located.IsCut cs size e.offset := by
  cases h with
  | unclosedBlock hbrace _ _ => exact .inr ⟨_, hbrace, rfl⟩
  | unclosed hsuffix hunclosed =>
    cases hunclosed with
    | quoted => exact .inr ⟨_, hsuffix.subset List.mem_cons_self, rfl⟩
    | comment => exact .inr ⟨_, hsuffix.subset List.mem_cons_self, rfl⟩
  | unexpectedClose hreach _ => exact .inr ⟨_, hreach.suffix.subset List.mem_cons_self, rfl⟩
  | unknownWord hreach _ _ => exact Located.isCut_startOf hreach.suffix.subset

/-- A source that is no stylesheet has a text to blame for it. -/
theorem blames_of_parse {source : String} {e : ParseError} (h : Sheet.parse source = .error e) :
    Blames source.utf8ByteSize (Located.ofString source) e := by
  unfold Sheet.parse at h
  cases hscan : scan source.utf8ByteSize [] (Located.ofString source) with
  | ok events =>
    rw [hscan] at h
    cases h
  | error e' =>
    rw [hscan] at h
    cases h
    have hreach : Reaches source.utf8ByteSize (Located.ofString source) []
        (Located.ofString source) := Crosses.refl
    exact scan_eq_error (Located.Rising.of_runs (Located.runs_ofString source)) hreach hscan

end Event

end SheetPolicy
