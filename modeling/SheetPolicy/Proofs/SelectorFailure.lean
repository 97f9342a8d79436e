import Mathlib
import SheetPolicy.Proofs.PseudoScan
import SheetPolicy.Proofs.SheetFailure

/-!
Why a text is no list of selectors. A bracket that is said to be unclosed is closed by no bracket
after it: for attributes and plain arguments by the grammar of groups (`group_eq_none`), and for
lists of selectors since a reading that comes to the end of the text over whole components comes to
no closing parenthesis (`Event.Crosses.not_closes`). Together with the errors of stylesheets this
says that an error points at the text to blame.
-/

namespace SheetPolicy

namespace Selector

/-! ## Groups -/

/-- What can stand in a group: escaped characters, quoted text, groups and other characters. -/
inductive GroupBody (left right : Char) : List Char → Prop
  | nil : GroupBody left right []
  | escape {c : Char} {cs : List Char} :
      GroupBody left right cs → GroupBody left right ('\\' :: c :: cs)
  | quoted {quote : Char} {inner cs : List Char} :
      quote = '"' ∨ quote = '\'' → Lexeme.StringBody quote inner → GroupBody left right cs →
      GroupBody left right (quote :: (inner ++ quote :: cs))
  | nested {inner cs : List Char} :
      GroupBody left right inner → GroupBody left right cs →
      GroupBody left right (left :: (inner ++ right :: cs))
  | plain {c : Char} {cs : List Char} :
      c ≠ '\\' → ¬(c = '"' ∨ c = '\'') → c ≠ left → c ≠ right → GroupBody left right cs →
      GroupBody left right (c :: cs)

section Group

variable {left right : Char} {depth : Nat}

theorem isSome_group_cons {quote : Option Char} {c : Located} (hc : c.char ≠ '\\')
    (hend : ¬(quote = none ∧ c.char = right ∧ depth = 1)) (cs : List Located) :
    (group left right depth quote (c :: cs)).isSome =
      (group left right (depthAfter left right depth quote c.char) (quoteAfter c.char quote)
        cs).isSome := by
  rw [group.eq_def]
  simp only [hc, if_false, hend, Option.isSome_map]

theorem isSome_group_escape {quote : Option Char} {c : Located} (hc : c.char = '\\') (d : Located)
    (cs : List Located) :
    (group left right depth quote (c :: d :: cs)).isSome =
      (group left right depth quote cs).isSome := by
  rw [group.eq_def]
  simp only [hc, if_true, Option.isSome_map]

/-- Quoted text is passed over up to the quote that closes it. -/
theorem isSome_group_string {quote : Char} {inner : List Char}
    (h : Lexeme.StringBody quote inner) {body : List Located}
    (hbody : body.map Located.char = inner) (tail : List Located) :
    (group left right depth (some quote) (body ++ tail)).isSome =
      (group left right depth (some quote) tail).isSome := by
  induction h generalizing body with
  | nil =>
    rw [List.map_eq_nil_iff.1 hbody]
    rfl
  | escape _ ih =>
    obtain ⟨b, rest, rfl, hb, hrest⟩ := List.map_eq_cons_iff.1 hbody
    obtain ⟨d, rest, rfl, _, hrest⟩ := List.map_eq_cons_iff.1 hrest
    rw [List.cons_append, List.cons_append, isSome_group_escape hb, ih hrest]
  | plain hquote hescape _ ih =>
    obtain ⟨b, rest, rfl, rfl, hrest⟩ := List.map_eq_cons_iff.1 hbody
    have hafter : quoteAfter b.char (some quote) = some quote := if_neg hquote
    rw [List.cons_append, isSome_group_cons hescape (by simp), hafter]
    exact ih hrest

/-- The inside of a group is passed over. -/
theorem isSome_group_body (hpair : IsPair left right) (hleft : left ≠ '\\') (hright : right ≠ '\\')
    {inner : List Char} (h : GroupBody left right inner) {body : List Located}
    (hbody : body.map Located.char = inner) (tail : List Located) :
    (group left right (depth + 1) none (body ++ tail)).isSome =
      (group left right (depth + 1) none tail).isSome := by
  induction h generalizing body depth tail with
  | nil =>
    rw [List.map_eq_nil_iff.1 hbody]
    rfl
  | escape _ ih =>
    obtain ⟨b, rest, rfl, hb, hrest⟩ := List.map_eq_cons_iff.1 hbody
    obtain ⟨d, rest, rfl, _, hrest⟩ := List.map_eq_cons_iff.1 hrest
    rw [List.cons_append, List.cons_append, isSome_group_escape hb, ih hrest]
  | @quoted quote _ _ hquote hinner _ ih =>
    obtain ⟨b, rest, rfl, rfl, hrest⟩ := List.map_eq_cons_iff.1 hbody
    obtain ⟨text, more, rfl, htext, hmore⟩ := List.map_eq_append_iff.1 hrest
    obtain ⟨q, more, rfl, hq, hmore⟩ := List.map_eq_cons_iff.1 hmore
    have hescape : b.char ≠ '\\' := by
      rcases hquote with hb | hb <;> rw [hb] <;> decide
    have hl : b.char ≠ left := fun hb => hpair.left_quote (hb ▸ hquote)
    have hr : b.char ≠ right := fun hb => hpair.right_quote (hb ▸ hquote)
    have hopen : quoteAfter b.char none = some b.char := if_pos hquote
    have hclose : quoteAfter q.char (some b.char) = none := if_pos hq
    have hdepth : depthAfter left right (depth + 1) none b.char = depth + 1 := by
      simp [depthAfter, hl, hr]
    rw [List.cons_append, isSome_group_cons hescape (by simp [hr]), hdepth, hopen,
      List.append_assoc, isSome_group_string hinner htext, List.cons_append,
      isSome_group_cons (hq ▸ hescape) (by simp), hclose]
    exact ih hmore tail
  | nested _ _ ihinner ih =>
    obtain ⟨b, rest, rfl, hb, hrest⟩ := List.map_eq_cons_iff.1 hbody
    obtain ⟨text, more, rfl, htext, hmore⟩ := List.map_eq_append_iff.1 hrest
    obtain ⟨r, more, rfl, hr, hmore⟩ := List.map_eq_cons_iff.1 hmore
    have hopen : quoteAfter b.char none = none := by
      rw [hb]
      exact if_neg hpair.left_quote
    have hclose : quoteAfter r.char none = none := by
      rw [hr]
      exact if_neg hpair.right_quote
    have hdeeper : depthAfter left right (depth + 1) none b.char = depth + 1 + 1 := by
      simp [depthAfter, hb]
    have hback : depthAfter left right (depth + 1 + 1) none r.char = depth + 1 := by
      simp [depthAfter, hr, hpair.sides.symm]
    rw [List.cons_append, isSome_group_cons (hb ▸ hleft) (by simp [hb, hpair.sides]), hdeeper, hopen,
      List.append_assoc, ihinner htext, List.cons_append,
      isSome_group_cons (hr ▸ hright) (by simp), hback, hclose]
    exact ih hmore tail
  | plain hescape hquote hl hr _ ih =>
    obtain ⟨b, rest, rfl, rfl, hrest⟩ := List.map_eq_cons_iff.1 hbody
    have hdepth : depthAfter left right (depth + 1) none b.char = depth + 1 := by
      simp [depthAfter, hl, hr]
    have hafter : quoteAfter b.char none = none := if_neg hquote
    rw [List.cons_append, isSome_group_cons hescape (by simp [hr]), hdepth, hafter]
    exact ih hrest tail

/-- The group that starts with an opening bracket is closed by a bracket after it. -/
def ClosesGroup (left right : Char) (rest : List Located) : Prop :=
  ∃ body close after, rest = body ++ close :: after ∧ close.char = right ∧
    GroupBody left right (body.map Located.char)

theorem group_eq_none (hpair : IsPair left right) (hleft : left ≠ '\\') (hright : right ≠ '\\')
    {c : Located} {rest : List Located} (hc : c.char = left)
    (h : group left right 0 none (c :: rest) = none) : ¬ClosesGroup left right rest := by
  rintro ⟨body, close, after, rfl, hclose, hbody⟩
  have hopen : quoteAfter c.char none = none := by
    rw [hc]
    exact if_neg hpair.left_quote
  have hdepth : depthAfter left right 0 none c.char = 0 + 1 := by
    simp [depthAfter, hc]
  have hnone := congrArg Option.isSome h
  rw [isSome_group_cons (hc ▸ hleft) (by simp), hdepth, hopen,
    isSome_group_body hpair hleft hright hbody rfl, group.eq_def] at hnone
  simp [hclose, hright] at hnone

end Group

/-! ## Components that cannot be taken -/

/-- No name starts here. -/
def Nameless (cs : List Located) : Prop :=
  ∀ c, Located.headChar cs = some c → c ≠ '\\' ∧ isNameChar c = false

theorem nameless_of_name {cs : List Located} (h : (name cs).1 = []) : Nameless cs := by
  intro x hx
  cases cs with
  | nil => cases hx
  | cons c rest =>
    cases hx
    rw [name.eq_def] at h
    dsimp only at h
    split at h
    · split at h <;> cases h
    · rename_i hescape
      split at h
      · cases h
      · rename_i hname
        exact ⟨hescape, by simpa using hname⟩

/-- The colons of a pseudo-class or a pseudo-element: one, if `rest` does not go on with another, or
two. -/
def IsColons (colons rest : List Located) : Prop :=
  (colons.map Located.char = [':'] ∧ Located.headChar rest ≠ some ':') ∨
    colons.map Located.char = [':', ':']

/-- The signs after which a name must stand; two colons are one sign. -/
def IsSign (sign rest : List Located) : Prop :=
  sign.map Located.char = ['.'] ∨ sign.map Located.char = ['#'] ∨ IsColons sign rest

/-- A pseudo-class or pseudo-element and the parenthesis that opens its argument. -/
structure IsCall (colons body : List Located) (paren : Located) (inner : List Located) : Prop where
  sign : colons.map Located.char = [':'] ∨ colons.map Located.char = [':', ':']
  body_ne : body ≠ []
  body_eq : name (body ++ paren :: inner) = (body, paren :: inner)
  paren_char : paren.char = '('

/-- The argument of the pseudo-class of this name is a list of selectors. -/
def takesList (body : List Located) : Bool :=
  takesSelectors.contains (Text.withoutVendor (Text.lower (Located.text body)))

namespace Event

/-! ## How far a reading comes -/

/-- What stands between components. -/
def IsBetween (c : Located) : Prop :=
  c.char = ',' ∨ isCombinator c.char = true ∨ Text.isSpace c.char = true

/-- From the first list one comes to the second over whole components and what stands between
them. -/
inductive Crosses : List Located → List Located → Prop
  | refl {cs : List Located} : Crosses cs cs
  | between {c : Located} {rest tail : List Located} :
      IsBetween c → Crosses rest tail → Crosses (c :: rest) tail
  | unit {c : Located} {rest after tail : List Located} {simple : Simple} :
      ofStart c rest = .ok (.unit simple, after) → Crosses after tail → Crosses (c :: rest) tail
  | applied {c close : Located} {rest inner after tail : List Located} {pseudo : Simple}
      {paren : Nat} :
      ofStart c rest = .ok (.opens pseudo paren, inner) → Crosses inner (close :: after) →
      close.char = ')' → Crosses after tail → Crosses (c :: rest) tail

/-- From the first list one comes to the second when the parentheses, innermost first, have been
entered and not left. -/
def Reaches (cs : List Located) : List Nat → List Located → Prop
  | [], tail => Crosses cs tail
  | paren :: outer, tail => ∃ c rest inner pseudo, Reaches cs outer (c :: rest) ∧
      ofStart c rest = .ok (.opens pseudo paren, inner) ∧ Crosses inner tail

theorem ofStart_other {c : Located} (hsign : c.char ∉ ['.', '#', '*', '&', '[', ':'])
    (hname : isNameChar c.char = false) (rest : List Located) :
    ofStart c rest = .error (.unexpectedCharacter c.char c.offset) := by
  simp only [List.mem_cons, List.not_mem_nil, or_false, not_or] at hsign
  simp [ofStart, hsign, hname]

/-- A component starts with none of the characters between components or after them. -/
theorem ofStart_ok {c : Located} {rest : List Located} {result : Event × List Located}
    (h : ofStart c rest = .ok result) : ¬IsBetween c ∧ c.char ≠ ')' := by
  rw [← not_or]
  intro hother
  simp only [IsBetween, isCombinator, Text.isSpace, Bool.or_eq_true, beq_iff_eq, or_assoc] at hother
  rcases hother with hc | hc | hc | hc | hc | hc | hc | hc | hc | hc <;>
  · rw [ofStart_other (by rw [hc]; decide) (by rw [hc]; decide)] at h
    cases h

theorem name_suffix (cs : List Located) : (name cs).2 <:+ cs :=
  ⟨(name cs).1, name_append cs⟩

theorem group_suffix {left right : Char} {depth : Nat} {quote : Option Char}
    {cs body after : List Located} (h : group left right depth quote cs = some (body, after)) :
    after <:+ cs := by
  obtain ⟨_, _, _, rfl⟩ := group_eq_cons h
  exact List.suffix_append body after

theorem named_eq_ok {index : Nat} {colons cs after : List Located} {event : Event}
    (h : named index colons cs = .ok (event, after)) :
    (∃ simple, event = .unit simple ∧ after <:+ cs) ∨
      ∃ pseudo body paren, event = .opens pseudo paren.offset ∧ name cs = (body, paren :: after) ∧
        body ≠ [] ∧ paren.char = '(' ∧ takesList body = true := by
  have hsuffix := name_suffix cs
  unfold named at h
  split at h
  · cases h
  · rename_i body beyond hbody hname
    rw [hname] at hsuffix
    dsimp only at h hsuffix
    split at h
    · rename_i paren inner
      split at h
      · rename_i hparen
        split at h
        · rename_i htakes
          cases h
          exact .inr ⟨_, body, paren, rfl, hname, hbody, hparen, htakes⟩
        · split at h
          · rename_i hgroup
            cases h
            exact .inl ⟨_, rfl, (group_suffix hgroup).trans hsuffix⟩
          · cases h
      · cases h
        exact .inl ⟨_, rfl, hsuffix⟩
    · cases h
      exact .inl ⟨_, rfl, hsuffix⟩

/-- One colon or two: in both cases a name must follow. -/
theorem ofPseudo_eq {c : Located} (hc : c.char = ':') (rest : List Located) :
    ∃ more cs, rest = more ++ cs ∧ IsColons (c :: more) cs ∧
      ofPseudo c rest = named c.offset (c :: more) cs := by
  cases rest with
  | nil => exact ⟨[], [], rfl, .inl ⟨by simp [hc], by simp⟩, rfl⟩
  | cons d rest =>
    unfold ofPseudo
    by_cases hd : d.char = ':'
    · exact ⟨[d], rest, rfl, .inr (by simp [hc, hd]), if_pos hd⟩
    · exact ⟨[], d :: rest, rfl, .inl ⟨by simp [hc], by simpa using hd⟩, if_neg hd⟩

/-- A component that can be taken is read to its end or up to its list of selectors. -/
theorem ofStart_eq_ok {c : Located} {rest after : List Located} {event : Event}
    (h : ofStart c rest = .ok (event, after)) :
    (∃ simple, event = .unit simple ∧ after <:+ c :: rest) ∨
      ∃ pseudo colons body paren, event = .opens pseudo paren.offset ∧
        c :: rest = colons ++ (body ++ paren :: after) ∧ IsCall colons body paren after ∧
        takesList body = true := by
  have hrest := List.suffix_cons c rest
  have hname := (name_suffix rest).trans hrest
  unfold ofStart at h
  split at h
  · split at h
    · cases h
    · rename_i hbody
      cases h
      rw [hbody] at hname
      exact .inl ⟨_, rfl, hname⟩
  split at h
  · cases h
    exact .inl ⟨_, rfl, hrest⟩
  split at h
  · cases h
    exact .inl ⟨_, rfl, hrest⟩
  split at h
  · split at h
    · rename_i hgroup
      cases h
      exact .inl ⟨_, rfl, group_suffix hgroup⟩
    · cases h
  split at h
  · rename_i hc
    obtain ⟨more, cs, rfl, hcolons, hpseudo⟩ := ofPseudo_eq hc rest
    rw [hpseudo] at h
    rcases named_eq_ok h with ⟨simple, rfl, hsuffix⟩ |
      ⟨pseudo, body, paren, rfl, hbody, hne, hparen, htakes⟩
    · exact .inl ⟨simple, rfl, hsuffix.trans ((List.suffix_append more cs).trans hrest)⟩
    · have happend := name_append cs
      rw [hbody] at happend
      dsimp only at happend
      rw [← happend] at hbody ⊢
      exact .inr ⟨pseudo, c :: more, body, paren, rfl, by simp,
        ⟨hcolons.imp And.left id, hne, hbody, hparen⟩, htakes⟩
  split at h
  · cases h
    exact .inl ⟨_, rfl, hname⟩
  · cases h

theorem ofStart_suffix {c : Located} {rest after : List Located} {event : Event}
    (h : ofStart c rest = .ok (event, after)) : after <:+ c :: rest := by
  rcases ofStart_eq_ok h with ⟨_, _, hsuffix⟩ | ⟨_, colons, body, paren, _, hsplit, _, _⟩
  · exact hsuffix
  · rw [hsplit]
    exact ⟨colons ++ (body ++ [paren]), by simp⟩

section Reading

variable {cs here next tail : List Located} {parens : List Nat}

theorem Crosses.trans (h : Crosses cs here) (hnext : Crosses here next) : Crosses cs next := by
  induction h with
  | refl => exact hnext
  | between hbetween _ ih => exact .between hbetween (ih hnext)
  | unit hstart _ ih => exact .unit hstart (ih hnext)
  | applied hstart hinner hclose _ _ ih => exact .applied hstart hinner hclose (ih hnext)

theorem crosses_skipSpace (cs : List Located) : Crosses cs (skipSpace cs) := by
  induction cs with
  | nil => exact .refl
  | cons c cs ih =>
    by_cases hspace : Text.isSpace c.char = true
    · have hskip : skipSpace (c :: cs) = skipSpace cs := by simp [skipSpace, hspace]
      rw [hskip]
      exact .between (.inr (.inr hspace)) ih
    · have hskip : skipSpace (c :: cs) = c :: cs := by simp [skipSpace, hspace]
      rw [hskip]
      exact .refl

/-- A closing parenthesis is not passed. -/
theorem Crosses.eq_of_close {close : Located} {rest : List Located} (hclose : close.char = ')')
    (h : Crosses (close :: rest) tail) : tail = close :: rest := by
  cases h with
  | refl => rfl
  | between hbetween _ =>
    have hnone : ¬IsBetween close := by
      unfold IsBetween
      rw [hclose]
      decide
    exact absurd hbetween hnone
  | unit hstart _ => exact absurd hclose (ofStart_ok hstart).2
  | applied hstart _ _ _ => exact absurd hclose (ofStart_ok hstart).2

/-- There is one way to go. -/
theorem Crosses.linear {tail' : List Located} (h : Crosses cs tail) (h' : Crosses cs tail') :
    Crosses tail tail' ∨ Crosses tail' tail := by
  induction h generalizing tail' with
  | refl => exact .inl h'
  | between hbetween hrest ih =>
    cases h' with
    | refl => exact .inr (.between hbetween hrest)
    | between _ hrest' => exact ih hrest'
    | unit hstart _ => exact absurd hbetween (ofStart_ok hstart).1
    | applied hstart _ _ _ => exact absurd hbetween (ofStart_ok hstart).1
  | unit hstart hrest ih =>
    cases h' with
    | refl => exact .inr (.unit hstart hrest)
    | between hbetween _ => exact absurd hbetween (ofStart_ok hstart).1
    | unit hstart' hrest' =>
      rw [hstart] at hstart'
      cases hstart'
      exact ih hrest'
    | applied hstart' _ _ _ =>
      rw [hstart] at hstart'
      cases hstart'
  | applied hstart hinner hclose hrest ihinner ih =>
    cases h' with
    | refl => exact .inr (.applied hstart hinner hclose hrest)
    | between hbetween _ => exact absurd hbetween (ofStart_ok hstart).1
    | unit hstart' _ =>
      rw [hstart] at hstart'
      cases hstart'
    | applied hstart' hinner' hclose' hrest' =>
      rw [hstart] at hstart'
      cases hstart'
      -- Neither closing parenthesis is passed on the way to the other, so they are one.
      rcases ihinner hinner' with hsame | hsame
      · cases hsame.eq_of_close hclose
        exact ih hrest'
      · cases hsame.eq_of_close hclose'
        exact ih hrest'

/-- If the end is reached, no parenthesis after the start closes the list that starts there. -/
theorem Crosses.not_closes (h : Crosses cs []) {close : Located} (hclose : close.char = ')')
    (after : List Located) : ¬Crosses cs (close :: after) := by
  intro hafter
  rcases h.linear hafter with hpast | hpast
  · cases hpast
  · cases hpast.eq_of_close hclose

theorem Crosses.suffix (h : Crosses cs tail) : tail <:+ cs := by
  induction h with
  | refl => exact List.suffix_rfl
  | between _ _ ih => exact ih.trans (List.suffix_cons _ _)
  | unit hstart _ ih => exact ih.trans (ofStart_suffix hstart)
  | applied hstart _ _ _ ihinner ih =>
    exact ih.trans ((List.suffix_cons _ _).trans (ihinner.trans (ofStart_suffix hstart)))

theorem Reaches.suffix (h : Reaches cs parens tail) : tail <:+ cs := by
  induction parens generalizing tail with
  | nil => exact Crosses.suffix h
  | cons paren outer ih =>
    obtain ⟨c, rest, inner, pseudo, habove, hstart, hinner⟩ := h
    exact hinner.suffix.trans ((ofStart_suffix hstart).trans (ih habove))

theorem Reaches.cross (h : Reaches cs parens here) (hcross : Crosses here tail) :
    Reaches cs parens tail := by
  cases parens with
  | nil => exact Crosses.trans h hcross
  | cons paren outer =>
    obtain ⟨c, rest, inner, pseudo, habove, hstart, hinner⟩ := h
    exact ⟨c, rest, inner, pseudo, habove, hstart, hinner.trans hcross⟩

/-- The parenthesis that closes the innermost list leads on from the list. -/
theorem Reaches.leave {paren : Nat} {close : Located} {rest : List Located}
    (h : Reaches cs (paren :: parens) (close :: rest)) (hclose : close.char = ')') :
    Reaches cs parens rest := by
  obtain ⟨c, before, inner, pseudo, habove, hstart, hinner⟩ := h
  exact habove.cross (.applied hstart hinner hclose .refl)

/-- A component that can be taken leads on, into its list of selectors if it has one. -/
theorem Reaches.step {c : Located} {rest after : List Located} {event : Event}
    (h : Reaches cs parens (c :: rest)) (hevent : ofStart c rest = .ok (event, after)) :
    Reaches cs (event.openAfter parens) after := by
  cases event with
  | unit simple => exact h.cross (.unit hevent .refl)
  | opens pseudo paren => exact ⟨c, rest, after, pseudo, h, hevent, .refl⟩
  | comma =>
    rcases ofStart_eq_ok hevent with ⟨_, hunit, _⟩ | ⟨_, _, _, _, hopens, _⟩
    · cases hunit
    · cases hopens
  | closes => exact absurd rfl (ofStart_ne_closes hevent)

end Reading

/-! ## What an error blames -/

/-- The text that an error blames. -/
inductive Blames (size : Nat) (cs : List Located) : Error → Prop
  | emptyAtEnd : Blames size cs (.emptySelector size)
  | emptyBefore {c : Located} : c ∈ cs → c.char = ',' ∨ c.char = ')' →
      Blames size cs (.emptySelector c.offset)
  | unexpectedCharacter {c : Located} : c ∈ cs →
      Blames size cs (.unexpectedCharacter c.char c.offset)
  | expectedName {c : Located} {more rest : List Located} : c :: more ++ rest <:+ cs →
      IsSign (c :: more) rest → Nameless rest → Blames size cs (.expectedName c.offset)
  | unclosedAttribute {bracket : Located} {inner : List Located} : bracket :: inner <:+ cs →
      bracket.char = '[' → ¬ClosesGroup '[' ']' inner →
      Blames size cs (.unclosed bracket.offset)
  | unclosedArgument {colons body inner : List Located} {paren : Located} :
      colons ++ (body ++ paren :: inner) <:+ cs → IsCall colons body paren inner →
      takesList body = false → ¬ClosesGroup '(' ')' inner →
      Blames size cs (.unclosed paren.offset)
  /-- Read as a list of selectors, what follows the parenthesis comes to no parenthesis that closes
  it. -/
  | unclosedList {colons body inner : List Located} {paren : Located} :
      colons ++ (body ++ paren :: inner) <:+ cs → IsCall colons body paren inner →
      takesList body = true → (∀ close after, close.char = ')' → ¬Crosses inner (close :: after)) →
      Blames size cs (.unclosed paren.offset)

theorem named_eq_error {size : Nat} {c : Located} {more cs all : List Located} {e : Error}
    (hall : c :: more ++ cs <:+ all) (hcolons : IsColons (c :: more) cs)
    (h : named c.offset (c :: more) cs = .error e) : Blames size all e := by
  unfold named at h
  split at h
  · rename_i beyond hname
    cases h
    exact .expectedName hall (.inr (.inr hcolons)) (nameless_of_name (by rw [hname]))
  · rename_i body beyond hbody hname
    have happend := name_append cs
    rw [hname] at happend
    dsimp only at h happend
    split at h
    · rename_i paren inner
      split at h
      · rename_i hparen
        split at h
        · cases h
        · rename_i htakes
          split at h
          · cases h
          · rename_i hgroup
            cases h
            rw [← happend] at hall hname
            exact .unclosedArgument hall ⟨hcolons.imp And.left id, hbody, hname, hparen⟩
              (by simpa [takesList] using htakes)
              (group_eq_none isPair_round (by decide) (by decide) hparen hgroup)
      · cases h
    · cases h

theorem ofStart_eq_error {size : Nat} {c : Located} {rest all : List Located} {e : Error}
    (hall : c :: rest <:+ all) (h : ofStart c rest = .error e) : Blames size all e := by
  unfold ofStart at h
  split at h
  · rename_i hmark
    split at h
    · rename_i beyond hname
      cases h
      have hsign : IsSign [c] rest := by
        rcases hmark with hc | hc
        · exact .inl (by simp [hc])
        · exact .inr (.inl (by simp [hc]))
      exact @Blames.expectedName _ _ c [] rest hall hsign (nameless_of_name (by rw [hname]))
    · cases h
  split at h
  · cases h
  split at h
  · cases h
  split at h
  · rename_i hc
    split at h
    · cases h
    · rename_i hgroup
      cases h
      exact .unclosedAttribute hall hc
        (group_eq_none isPair_square (by decide) (by decide) hc hgroup)
  split at h
  · rename_i hc
    obtain ⟨more, cs, rfl, hcolons, hpseudo⟩ := ofPseudo_eq hc rest
    rw [hpseudo] at h
    exact named_eq_error hall hcolons h
  split at h
  · cases h
  · cases h
    exact .unexpectedCharacter (hall.subset List.mem_cons_self)

/-- A list of selectors that is still open at the end is never closed. -/
theorem Reaches.blames {size paren : Nat} {parens : List Nat} {all : List Located}
    (h : Reaches all (paren :: parens) []) : Blames size all (.unclosed paren) := by
  obtain ⟨c, rest, inner, pseudo, habove, hstart, hinner⟩ := h
  rcases ofStart_eq_ok hstart with ⟨_, hunit, _⟩ | ⟨_, colons, body, p, hopens, hsplit, hcall, htakes⟩
  · cases hunit
  · cases hopens
    refine .unclosedList ?_ hcall htakes fun close after hclose => hinner.not_closes hclose after
    rw [← hsplit]
    exact habove.suffix

theorem map_error {ε α β : Type} {f : α → β} {x : Except ε α} {e : ε} (h : x.map f = .error e) :
    x = .error e := by
  cases x with
  | error e' => simpa [Except.map] using h
  | ok a => cases h

theorem scan_eq_error {size : Nat} {parens : List Nat} {fresh : Bool} {all cs : List Located}
    {e : Error} (hreach : Reaches all parens cs) (h : scan size parens fresh cs = .error e) :
    Blames size all e := by
  have hmem : ∀ {c : Located} {rest : List Located} {parens : List Nat},
      Reaches all parens (c :: rest) → c ∈ all := fun hreach =>
    hreach.suffix.subset List.mem_cons_self
  fun_induction scan size parens fresh cs with
  | case1 =>
    cases h
    exact .emptyAtEnd
  | case2 => cases h
  | case3 parens fresh paren outer =>
    cases h
    exact hreach.blames
  | case4 parens c rest hc =>
    cases h
    exact .emptyBefore (hmem hreach) (.inl hc)
  | case5 parens fresh c rest hc _ ih =>
    refine ih (hreach.cross (.between (.inl hc) (crosses_skipSpace rest))) (map_error h)
  | case6 parens c rest _ hc =>
    cases h
    exact .emptyBefore (hmem hreach) (.inr hc)
  | case7 fresh c rest _ hc =>
    cases h
    rw [← hc]
    exact .unexpectedCharacter (hmem hreach)
  | case8 fresh c rest _ hc _ paren outer ih => exact ih (hreach.leave hc) (map_error h)
  | case9 parens fresh c rest _ _ hc ih =>
    exact ih (hreach.cross (.between (.inr (.inl hc)) (crosses_skipSpace rest))) (map_error h)
  | case10 parens fresh c rest _ _ _ hspace hrest ih =>
    refine ih (hreach.cross (.between (.inr (.inr hspace)) ?_)) h
    rw [← hrest]
    exact crosses_skipSpace rest
  | case11 parens fresh c rest _ _ _ hspace d after hrest _ hd ih =>
    refine ih (hreach.cross (.between (.inr (.inr hspace)) ?_)) (map_error h)
    refine (crosses_skipSpace rest).trans ?_
    rw [hrest]
    exact .between (.inr (.inl hd)) (crosses_skipSpace after)
  | case12 parens fresh c rest _ _ _ hspace d after hrest _ _ _ ih =>
    refine ih (hreach.cross (.between (.inr (.inr hspace)) ?_)) h
    rw [← hrest]
    exact crosses_skipSpace rest
  | case13 parens fresh c rest _ _ _ hspace d after hrest _ _ _ ih =>
    refine ih (hreach.cross (.between (.inr (.inr hspace)) ?_)) (map_error h)
    rw [← hrest]
    exact crosses_skipSpace rest
  | case14 parens fresh c rest _ _ _ _ e' hstart =>
    cases h
    exact ofStart_eq_error hreach.suffix hstart
  | case15 parens fresh c rest _ _ _ _ event after hstart _ next =>
    rename_i ih
    refine ih ((hreach.step hstart).cross ?_) (map_error h)
    simp only [next]
    split
    · exact crosses_skipSpace after
    · exact .refl

/-- A text that is no list of selectors has a text to blame for it. -/
theorem blames_of_parse {text : String} {e : Error} (h : parse text = .error e) :
    Blames text.utf8ByteSize (Located.ofString text) e := by
  have hreach : Reaches (Located.ofString text) [] (skipSpace (Located.ofString text)) :=
    crosses_skipSpace _
  exact scan_eq_error hreach (map_error h)

end Event

end Selector

/-- Errors point at the text to blame. The error of a source that is no stylesheet stands between
two characters and blames the text there, and so does that of a text that is no list of selectors. -/
theorem errors_blame (text : String) :
    (∀ e, Sheet.parse text = .error e → e.offset ≤ text.utf8ByteSize ∧
      Sheet.isBoundary text e.offset = true ∧
      Event.Blames text.utf8ByteSize (Located.ofString text) e) ∧
    ∀ e, Selector.parse text = .error e →
      Selector.Event.Blames text.utf8ByteSize (Located.ofString text) e := by
  refine ⟨fun e h => ?_, fun e h => Selector.Event.blames_of_parse h⟩
  have hblames := Event.blames_of_parse h
  exact ⟨hblames.isCut.le (Located.runs_ofString text), Located.isBoundary_iff.2 hblames.isCut,
    hblames⟩

/-- The error, if there is one. -/
def error? {ε α : Type} : Except ε α → Option ε
  | .error e => some e
  | .ok _ => none

theorem eq_error_of_error? {ε α : Type} {x : Except ε α} {e : ε} (h : error? x = some e) :
    x = .error e := by
  cases x with
  | error e' => exact congrArg Except.error (Option.some.inj h)
  | ok a => cases h

/-- In the first the inner block is closed, and in the third the last quote is escaped. -/
def sampleFailures : List (String × ParseError) :=
  [("a\x7bb\x7b\x7d", .unclosedBlock 1), ("a\x7b/*\x7d", .unclosedComment 2),
    ("a\x7bb:'\\'\x7d", .unclosedString 4), ("a\x7b\x7d\x7d", .unexpectedClose 3),
    ("a\x7bé \x7d", .unknownWord 2 "é")]

/-- A parenthesis in brackets closes no list, and one in quotes closes no argument. -/
def sampleSelectorFailures : List (String × Selector.Error) :=
  [(":is(a,)", .emptySelector 6), ("a,", .emptySelector 2), ("a::(b)", .expectedName 1),
    (":is([)]", .unclosed 3), (":lang(')'", .unclosed 5), ("a[b", .unclosed 1),
    ("é)", .unexpectedCharacter ')' 2)]

theorem errors_blame_sample :
    (∀ sample ∈ sampleFailures, Sheet.parse sample.1 = .error sample.2 ∧
      Event.Blames sample.1.utf8ByteSize (Located.ofString sample.1) sample.2) ∧
    ∀ sample ∈ sampleSelectorFailures, Selector.parse sample.1 = .error sample.2 ∧
      Selector.Event.Blames sample.1.utf8ByteSize (Located.ofString sample.1) sample.2 := by
  have hsheets : ∀ sample ∈ sampleFailures, error? (Sheet.parse sample.1) = some sample.2 := by
    decide +kernel
  have hselectors : ∀ sample ∈ sampleSelectorFailures,
      error? (Selector.parse sample.1) = some sample.2 := by
    decide +kernel
  refine ⟨fun sample hsample => ?_, fun sample hsample => ?_⟩
  · have herror := eq_error_of_error? (hsheets sample hsample)
    exact ⟨herror, ((errors_blame sample.1).1 _ herror).2.2⟩
  · have herror := eq_error_of_error? (hselectors sample hsample)
    exact ⟨herror, (errors_blame sample.1).2 _ herror⟩

end SheetPolicy
