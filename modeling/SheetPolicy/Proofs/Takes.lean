import Mathlib
import SheetPolicy.Proofs.Layout
import SheetPolicy.Proofs.Units

/-!
The four forms of a statement. What stands at the start of a statement is read as a comment, an
at-rule, a style rule or a declaration, and each form is told by how the characters divide
(`Event.Takes`). A reading takes exactly these forms (`Event.ofStart_eq_ok_iff`), so that whatever
keeps the forms of the statements of a source keeps its tree.
-/

namespace SheetPolicy.Event

/-! ## Declarations -/

theorem dropRightWhile_append {α : Type} {p : α → Bool} {xs gap : List α}
    (hgap : ∀ x ∈ gap, p x = true) (hlast : ∀ x, xs.getLast? = some x → p x = false) :
    Text.dropRightWhile p (xs ++ gap) = xs := by
  rw [Text.dropRightWhile, List.reverse_append,
    List.dropWhile_append_of_pos (fun x hx => hgap x (List.mem_reverse.1 hx))]
  cases h : xs.reverse with
  | nil => simp_all
  | cons x rest =>
    have hx : p x = false := hlast x (by rw [← List.head?_reverse, h]; rfl)
    rw [List.dropWhile_cons_of_neg (by simp [hx]), ← h, List.reverse_reverse]

theorem getLast?_dropRightWhile {α : Type} {p : α → Bool} {xs : List α} {x : α}
    (h : (Text.dropRightWhile p xs).getLast? = some x) : p x = false := by
  rw [Text.dropRightWhile, List.getLast?_reverse] at h
  cases hdrop : xs.reverse.dropWhile p with
  | nil => simp [hdrop] at h
  | cons y rest =>
    obtain rfl : y = x := by simpa [hdrop] using h
    have := List.head_dropWhile_not p (l := xs.reverse) (by simp [hdrop])
    simpa [hdrop] using this

/-- The text `taken`, which `tail` follows, is that of a declaration: a property before the first
colon, and a value after it up to the blanks at the end. -/
structure Divides (size : Nat) (taken tail before : List Located) (colon : Located)
    (after gap : List Located) (prop value : Excerpt) : Prop where
  taken_eq : taken = before ++ colon :: (after ++ gap)
  colon_char : colon.char = ':'
  before_free : ∀ c ∈ before, c.char ≠ ':'
  gap_blank : ∀ c ∈ gap, Text.isBlank c.char = true
  tight : ∀ c, (colon :: after).getLast? = some c → Text.isBlank c.char = false
  prop_cut : Excerpt.cut (taken ++ tail) colon.offset = .ok prop
  value_cut : Excerpt.cut (after ++ (gap ++ tail)) (Located.startOf size (gap ++ tail)) = .ok value

theorem declaration_eq_ok_iff {size start : Nat} {taken tail : List Located} {decl : Declaration}
    (hrising : Located.Rising size (taken ++ tail)) :
    declaration start (taken ++ tail) (Located.startOf size tail) = .ok decl ↔
      ∃ before colon after gap prop value,
        Divides size taken tail before colon after gap prop value ∧
        decl = ⟨⟨start, Located.startOf size (gap ++ tail)⟩, prop.text, value.splitImportant.1,
          value.splitImportant.2⟩ := by
  constructor
  · intro h
    obtain ⟨before, colon, after, prop, value, htext, hcolon, hfree, hprop, hvalue, rfl⟩ :=
      declaration_cases h
    obtain ⟨text, gap, rfl, htext', hstop, hblank⟩ := declarationText_append hrising
    obtain rfl : text = before ++ colon :: after := htext'.symm.trans htext
    rw [hstop] at hvalue ⊢
    rw [List.append_assoc, List.append_assoc, List.cons_append] at hrising
    rw [List.append_assoc (before ++ _), List.append_assoc before, List.cons_append,
      dropWhile_le_offset hrising] at hvalue
    refine ⟨before, colon, after, gap, prop, value, ⟨by simp, hcolon, hfree, hblank, ?_, hprop,
      hvalue⟩, rfl⟩
    intro c hc
    have hlast : (declarationText (before ++ colon :: after ++ gap ++ tail)
        (Located.startOf size tail)).getLast? = some c := by
      rw [htext, List.getLast?_append, hc]
      rfl
    exact getLast?_dropRightWhile (p := fun c : Located => Text.isBlank c.char) hlast
  · rintro ⟨before, colon, after, gap, prop, value, hdiv, rfl⟩
    obtain ⟨rfl, hcolon, hfree, hblank, htight, hprop, hvalue⟩ := hdiv
    have htake := takeWhile_lt_startOf hrising
    have hdrop : Text.dropRightWhile (fun c : Located => Text.isBlank c.char)
        (before ++ colon :: (after ++ gap)) = before ++ colon :: after := by
      rw [← List.cons_append, ← List.append_assoc]
      refine dropRightWhile_append hblank fun c hc => htight c ?_
      simpa [List.getLast?_append] using hc
    have hlast : (before ++ colon :: (after ++ gap)).drop (before ++ colon :: after).length =
        gap := by
      rw [← List.cons_append, ← List.append_assoc, List.drop_left]
    have hfind : (before ++ colon :: after).find? (fun c => c.char = ':') = some colon :=
      List.find?_eq_some_iff_append.2 ⟨by simp [hcolon], before, after, rfl, by simpa using hfree⟩
    have hrest : (before ++ colon :: (after ++ gap) ++ tail).dropWhile
        (fun c => c.offset ≤ colon.offset) = after ++ (gap ++ tail) := by
      have := @dropWhile_le_offset size before (after ++ gap ++ tail) colon (by simpa using hrising)
      simpa using this
    simp only [declaration, htake, hdrop, hlast, hfind, hprop, hrest, ← Located.startOf_append,
      hvalue, bind, Except.bind, pure, Except.pure]

/-- A statement ends at a terminator or at the end of the source. -/
theorem headChar_skip {depth : Nat} {cs stop : List Located}
    (h : Prelude.skip depth cs = .ok stop) {c : Char} (hc : Prelude.isTerminator c = false) :
    Located.headChar stop ≠ some c := by
  cases stop with
  | nil => simp
  | cons t after =>
    have hterm := Prelude.skip_terminator h
    rw [Located.headChar_cons, ne_eq, Option.some_inj]
    rintro rfl
    rw [hc] at hterm
    simp at hterm

/-! ## Forms -/

/-- What is left after a declaration that ends where `stop` starts. -/
def afterSemicolon : List Located → List Located
  | [] => []
  | t :: after => if t.char = ';' then after else t :: after

/-- The event of an at-rule that ends where `stop` starts, and what is left. -/
def atRuleEnd (size start : Nat) (name : String) (params : Excerpt) :
    List Located → Event × List Located
  | [] => (.leaf (.atStatement ⟨⟨start, size⟩, name, params⟩), [])
  | t :: after =>
    if t.char = '{' then (.opens start t.offset (.atRule name params), after)
    else if t.char = ';' then (.leaf (.atStatement ⟨⟨start, t.stop⟩, name, params⟩), after)
    else (.leaf (.atStatement ⟨⟨start, t.offset⟩, name, params⟩), t :: after)

/-- The characters start a style rule or a declaration: no at-rule and no comment. -/
def StartsStatement : List Located → Prop
  | [] => False
  | c :: rest => c.char ≠ '@' ∧ ¬(c.char = '/' ∧ Located.headChar rest = some '*')

/-- The forms of a statement at the front of some characters: the event it is, and what follows. -/
inductive Takes (size : Nat) : List Located → Event → List Located → Prop
  | comment {c star : Located} {body after : List Located} :
      c.char = '/' → star.char = '*' → Lexeme.closeComment (body ++ after) = some (body, after) →
      Takes size (c :: star :: (body ++ after))
        (.leaf (.comment ⟨⟨c.offset, Located.startOf size after⟩,
          Text.trim (Located.text (body.take (body.length - 2)))⟩)) after
  | atRule {c : Located} {name taken stop next : List Located} {params : Excerpt} {e : Event} :
      c.char = '@' → (∀ d ∈ name, isNameChar d.char = true) →
      (∀ x, Located.headChar (taken ++ stop) = some x → isNameChar x = false) →
      Prelude.skip 0 (taken ++ stop) = .ok stop →
      Excerpt.cut (taken ++ stop) (Located.startOf size stop) = .ok params →
      atRuleEnd size c.offset (Located.text name) params stop = (e, next) →
      Takes size (c :: (name ++ (taken ++ stop))) e next
  | rule {taken inner : List Located} {t : Located} {selector : Excerpt} :
      StartsStatement (taken ++ t :: inner) → t.char = '{' →
      Prelude.skip 0 (taken ++ t :: inner) = .ok (t :: inner) →
      Excerpt.cut (taken ++ t :: inner) t.offset = .ok selector →
      Takes size (taken ++ t :: inner)
        (.opens (Located.startOf size (taken ++ t :: inner)) t.offset (.rule selector)) inner
  | declaration {taken stop before after gap : List Located} {colon : Located}
      {prop value : Excerpt} :
      StartsStatement (taken ++ stop) → Located.headChar stop ≠ some '{' →
      Prelude.skip 0 (taken ++ stop) = .ok stop →
      Divides size taken stop before colon after gap prop value →
      Takes size (taken ++ stop)
        (.leaf (.declaration ⟨⟨Located.startOf size (taken ++ stop),
          Located.startOf size (gap ++ stop)⟩, prop.text, value.splitImportant.1,
          value.splitImportant.2⟩)) (afterSemicolon stop)

variable {size : Nat} {c : Located} {rest next : List Located} {e : Event}

/-! ### At-rules -/

/-- The first character after an at-rule's name is none of the name. -/
theorem takeWhile_name {name tail : List Located} (hname : ∀ d ∈ name, isNameChar d.char = true)
    (htail : ∀ x, Located.headChar tail = some x → isNameChar x = false) :
    (name ++ tail).takeWhile (fun d => isNameChar d.char) = name ∧
      (name ++ tail).dropWhile (fun d => isNameChar d.char) = tail := by
  rw [List.takeWhile_append_of_pos hname, List.dropWhile_append_of_pos hname]
  cases tail with
  | nil => simp
  | cons d tail => simp [htail d.char rfl]

theorem ofAtRule_eq_ok_iff {r : Event × List Located} :
    ofAtRule size c rest = .ok r ↔
      ∃ stop params, Prelude.skip 0 (rest.dropWhile fun d => isNameChar d.char) = .ok stop ∧
        Excerpt.cut (rest.dropWhile fun d => isNameChar d.char) (Located.startOf size stop) =
          .ok params ∧
        atRuleEnd size c.offset (Located.text (rest.takeWhile fun d => isNameChar d.char))
          params stop = r := by
  constructor
  · intro h
    unfold ofAtRule at h
    obtain ⟨stop, hstop, h⟩ := bind_ok h
    obtain ⟨params, hparams, h⟩ := bind_ok h
    refine ⟨stop, params, hstop, hparams, Except.ok.inj (Eq.trans ?_ h)⟩
    cases stop with
    | nil => rfl
    | cons t after => simp only [atRuleEnd, apply_ite Except.ok]; rfl
  · rintro ⟨stop, params, hstop, hparams, rfl⟩
    simp only [ofAtRule, hstop, hparams, bind, Except.bind, pure, Except.pure]
    cases stop with
    | nil => rfl
    | cons t after => simp only [atRuleEnd, apply_ite Except.ok]

theorem takes_of_ofAtRule (hc : c.char = '@') (h : ofAtRule size c rest = .ok (e, next)) :
    Takes size (c :: rest) e next := by
  obtain ⟨stop, params, hstop, hparams, hend⟩ := ofAtRule_eq_ok_iff.1 h
  obtain ⟨taken, htaken⟩ := Prelude.skip_suffix hstop
  have hhead : ∀ x, Located.headChar (taken ++ stop) = some x → isNameChar x = false := by
    intro x hx
    obtain ⟨d, hd, rfl⟩ := Option.map_eq_some_iff.1 hx
    have := List.head?_dropWhile_not (fun d : Located => isNameChar d.char) rest
    rw [← htaken, hd] at this
    exact this
  have happ := List.takeWhile_append_dropWhile (p := fun d : Located => isNameChar d.char)
    (l := rest)
  rw [← htaken] at hstop hparams happ
  rw [← happ]
  exact .atRule hc (fun d hd => List.mem_takeWhile_imp (p := fun d : Located => isNameChar d.char) hd)
    hhead hstop hparams hend

/-! ### Style rules and declarations -/

theorem takes_of_ofStatement (hrising : Located.Rising size (c :: rest))
    (hstart : StartsStatement (c :: rest)) (h : ofStatement size c rest = .ok (e, next)) :
    Takes size (c :: rest) e next := by
  unfold ofStatement at h
  obtain ⟨stop, hstop, h⟩ := bind_ok h
  obtain ⟨taken, htaken⟩ := Prelude.skip_suffix hstop
  have hoffset : Located.startOf size (taken ++ stop) = c.offset := by rw [htaken]; rfl
  rw [← htaken] at hstart hstop hrising h ⊢
  by_cases hopen : Located.headChar stop = some '{'
  · cases stop with
    | nil => simp at hopen
    | cons t inner =>
      have ht : t.char = '{' := by simpa using hopen
      simp only [if_pos ht] at h
      obtain ⟨selector, hselector, h⟩ := bind_ok h
      obtain ⟨rfl, rfl⟩ := by simpa [pure, Except.pure] using h
      rw [← hoffset]
      exact .rule hstart ht hstop hselector
  · obtain ⟨decl, hdecl, hend⟩ : ∃ decl,
        declaration c.offset (taken ++ stop) (Located.startOf size stop) = .ok decl ∧
          e = .leaf (.declaration decl) ∧ next = afterSemicolon stop := by
      cases stop with
      | nil =>
        obtain ⟨decl, hdecl, h⟩ := bind_ok h
        exact ⟨decl, hdecl, by simpa [pure, Except.pure, afterSemicolon, eq_comm] using h⟩
      | cons t after =>
        have ht : ¬t.char = '{' := by simpa using hopen
        simp only [if_neg ht] at h
        obtain ⟨decl, hdecl, h⟩ := bind_ok h
        exact ⟨decl, hdecl, by simpa [pure, Except.pure, afterSemicolon, eq_comm] using h⟩
    obtain ⟨before, colon, after, gap, prop, value, hdivides, rfl⟩ :=
      (declaration_eq_ok_iff hrising).1 hdecl
    obtain ⟨rfl, rfl⟩ := hend
    rw [← hoffset]
    exact .declaration hstart hopen hstop hdivides

theorem ofStart_statement (hstart : StartsStatement (c :: rest)) :
    ofStart size c rest = ofStatement size c rest := by
  rw [ofStart, if_neg hstart.1]
  exact if_neg hstart.2

/-! ### Statements -/

theorem Takes.ofStart_eq {cs : List Located} (h : Takes size cs e next)
    (hrising : Located.Rising size cs) (hcs : cs = c :: rest) :
    ofStart size c rest = .ok (e, next) := by
  cases h with
  | @comment d star body after hd hstar hclose =>
    obtain ⟨rfl, rfl⟩ := by simpa using hcs
    simp [ofStart, hd, hstar, ofComment, hclose]
  | @atRule d name taken stop _ params _ hd hname hhead hstop hparams hend =>
    obtain ⟨rfl, rfl⟩ := by simpa using hcs
    rw [ofStart, if_pos hd, ofAtRule_eq_ok_iff]
    obtain ⟨htake, hdrop⟩ := takeWhile_name hname hhead
    exact ⟨stop, params, by rw [hdrop]; exact hstop, by rw [hdrop]; exact hparams,
      by rw [htake]; exact hend⟩
  | @rule taken inner t selector hstart ht hstop hselector =>
    rw [hcs] at hstart hstop hselector ⊢
    rw [ofStart_statement hstart]
    simp [ofStatement, hstop, ht, hselector, bind, Except.bind, pure, Except.pure]
  | @declaration taken stop before after gap colon prop value hstart hopen hstop hdivides =>
    have hdecl : Event.declaration (Located.startOf size (taken ++ stop)) (taken ++ stop)
        (Located.startOf size stop) = .ok _ :=
      (declaration_eq_ok_iff hrising).2 ⟨before, colon, after, gap, prop, value, hdivides, rfl⟩
    rw [hcs] at hstart hstop hdecl ⊢
    rw [ofStart_statement hstart]
    cases stop with
    | nil =>
      simp only [Located.startOf_nil, Located.startOf_cons] at hdecl
      simp [ofStatement, hstop, hdecl, bind, Except.bind, pure, Except.pure, afterSemicolon]
    | cons t after =>
      have ht : ¬t.char = '{' := by simpa using hopen
      simp only [Located.startOf_cons] at hdecl
      simp [ofStatement, hstop, ht, hdecl, bind, Except.bind, pure, Except.pure, afterSemicolon]

/-- A reading takes a statement exactly in one of its forms. -/
theorem ofStart_eq_ok_iff (hrising : Located.Rising size (c :: rest)) :
    ofStart size c rest = .ok (e, next) ↔ Takes size (c :: rest) e next := by
  constructor
  · intro h
    unfold ofStart at h
    split at h
    · next hc => exact takes_of_ofAtRule hc h
    · next hc =>
      split at h
      · next hmark =>
        obtain ⟨star, more, rfl, hstar⟩ : ∃ star more, rest = star :: more ∧ star.char = '*' := by
          cases rest with
          | nil => simp at hmark
          | cons star more => exact ⟨star, more, rfl, by simpa using hmark.2⟩
        rw [ofComment, List.tail_cons] at h
        cases hclose : Lexeme.closeComment more with
        | none => simp [hclose] at h
        | some pair =>
          obtain ⟨body, after⟩ := pair
          obtain ⟨rfl, rfl⟩ := by simpa [hclose] using h
          obtain rfl := Lexeme.closeComment_append hclose
          exact .comment hmark.1 hstar hclose
      · next hmark => exact takes_of_ofStatement hrising ⟨hc, hmark⟩ h
  · exact fun h => h.ofStart_eq hrising rfl

/-! ## Blocks -/

/-- An at-rule is a node of its own or opens a block. -/
theorem atRuleEnd_cases {start : Nat} {name : String} {params : Excerpt} {stop : List Located}
    (h : atRuleEnd size start name params stop = (e, next)) :
    next <:+ stop ∧ ((∃ last, e = .leaf (.atStatement ⟨⟨start, last⟩, name, params⟩)) ∨
      ∃ brace, e = .opens start brace (.atRule name params)) := by
  cases stop with
  | nil =>
    obtain ⟨rfl, rfl⟩ := Prod.mk.inj h
    exact ⟨List.suffix_rfl, .inl ⟨_, rfl⟩⟩
  | cons t after =>
    rw [atRuleEnd] at h
    split at h
    · obtain ⟨rfl, rfl⟩ := Prod.mk.inj h
      exact ⟨List.suffix_cons _ _, .inr ⟨_, rfl⟩⟩
    · split at h
      · obtain ⟨rfl, rfl⟩ := Prod.mk.inj h
        exact ⟨List.suffix_cons _ _, .inl ⟨_, rfl⟩⟩
      · obtain ⟨rfl, rfl⟩ := Prod.mk.inj h
        exact ⟨List.suffix_rfl, .inl ⟨_, rfl⟩⟩

theorem afterSemicolon_suffix (stop : List Located) : afterSemicolon stop <:+ stop := by
  cases stop with
  | nil => exact List.suffix_rfl
  | cons t after =>
    rw [afterSemicolon]
    split
    · exact List.suffix_cons t after
    · exact List.suffix_rfl

theorem Takes.suffix {cs : List Located} (h : Takes size cs e next) : next <:+ cs := by
  cases h with
  | @comment c star body _ _ _ _ => exact ⟨c :: star :: body, by simp⟩
  | @atRule c name taken stop _ params _ _ _ _ _ _ hend =>
    exact (atRuleEnd_cases hend).1.trans ⟨c :: (name ++ taken), by simp⟩
  | @rule taken _ t _ _ _ _ _ => exact ⟨taken ++ [t], by simp⟩
  | @declaration taken stop _ _ _ _ _ _ _ _ _ _ =>
    exact (afterSemicolon_suffix stop).trans (List.suffix_append taken stop)

/-- A statement that opens no block is a node without one. -/
theorem Takes.body?_leaf {cs : List Located} {node : Node} (h : Takes size cs (.leaf node) next) :
    node.body? = none := by
  cases h with
  | comment => rfl
  | declaration => rfl
  | atRule _ _ _ _ _ hend =>
    obtain ⟨_, ⟨last, hleaf⟩ | ⟨brace, hopens⟩⟩ := atRuleEnd_cases hend
    · obtain rfl := Event.leaf.inj hleaf
      rfl
    · simp at hopens

/-- A node starts here: no blank, no semicolon and no closing brace. -/
def StartsNode : List Located → Prop
  | [] => False
  | c :: _ => ¬IsFiller c ∧ c.char ≠ '}'

/-- The nodes of a block, found statement by statement: `Reads` in terms of the forms. -/
inductive Builds (size : Nat) : List Located → List Node → List Located → Prop
  | finish : Builds size [] [] []
  | close {c : Located} {rest : List Located} :
      c.char = '}' → Builds size (c :: rest) [] (c :: rest)
  | filler {c : Located} {rest after : List Located} {nodes : List Node} :
      IsFiller c → Builds size rest nodes after → Builds size (c :: rest) nodes after
  | leaf {cs next after : List Located} {node : Node} {nodes : List Node} :
      StartsNode cs → Takes size cs (.leaf node) next → Builds size next nodes after →
      Builds size cs (node :: nodes) after
  | block {close : Located} {cs inner outer after : List Located} {start brace : Nat}
      {head : Head} {body nodes : List Node} :
      StartsNode cs → Takes size cs (.opens start brace head) inner →
      Builds size inner body (close :: outer) → close.char = '}' → Builds size outer nodes after →
      Builds size cs (head.node ⟨start, close.stop⟩ body :: nodes) after

theorem Builds.suffix {cs after : List Located} {nodes : List Node} (h : Builds size cs nodes after) :
    after <:+ cs := by
  induction h with
  | finish => exact List.suffix_rfl
  | close => exact List.suffix_rfl
  | filler _ _ ih => exact ih.trans (List.suffix_cons _ _)
  | leaf _ htakes _ ih => exact ih.trans htakes.suffix
  | block _ htakes _ _ _ ihbody ih =>
    exact ih.trans ((List.suffix_cons _ _).trans (ihbody.trans htakes.suffix))

/-- The event is that of a node or of the head of a node. -/
def Makes (node : Node) : Event → Prop
  | .leaf other => node = other
  | .opens start _ head => ∃ stop body, node = head.node ⟨start, stop⟩ body
  | .closes _ => False

theorem Takes.start_eq {cs : List Located} {node : Node} (h : Takes size cs e next)
    (he : e.Makes node) :
    Located.startOf size cs = node.span.start := by
  cases h with
  | comment | declaration =>
    obtain rfl := he
    rfl
  | rule =>
    obtain ⟨_, _, rfl⟩ := he
    rfl
  | atRule _ _ _ _ _ hend =>
    rcases (atRuleEnd_cases hend).2 with ⟨_, rfl⟩ | ⟨_, rfl⟩
    · obtain rfl := he
      rfl
    · obtain ⟨_, _, rfl⟩ := he
      rfl

/-- Every node is a statement of the text that it stands in, or its block starts with one. -/
theorem Builds.exists_takes {cs after : List Located} {nodes : List Node} {node : Node}
    (h : Builds size cs nodes after) (hoccurs : node.Occurs nodes) :
    ∃ ds e next, ds <:+ cs ∧ StartsNode ds ∧ Takes size ds e next ∧ e.Makes node := by
  induction h with
  | finish | close => exact absurd hoccurs (Node.not_occurs_nil _)
  | filler _ _ ih =>
    obtain ⟨ds, e, next, hds, htakes⟩ := ih hoccurs
    exact ⟨ds, e, next, hds.trans (List.suffix_cons _ _), htakes⟩
  | @leaf cs next after other nodes hstart htakes _ ih =>
    rcases Node.occurs_cons.1 hoccurs with rfl | hbody | hlater
    · exact ⟨cs, _, next, List.suffix_rfl, hstart, htakes, rfl⟩
    · rw [htakes.body?_leaf] at hbody
      exact absurd hbody (Node.not_occurs_nil _)
    · obtain ⟨ds, e, next', hds, htakes'⟩ := ih hlater
      exact ⟨ds, e, next', hds.trans htakes.suffix, htakes'⟩
  | @block close cs inner outer after start brace head body nodes hstart htakes hinner _ _ ihbody
      ih =>
    rcases Node.occurs_cons.1 hoccurs with rfl | hbody | hlater
    · exact ⟨cs, _, inner, List.suffix_rfl, hstart, htakes, _, _, rfl⟩
    · obtain ⟨ds, e, next, hds, htakes'⟩ := ihbody (by simpa using hbody)
      exact ⟨ds, e, next, hds.trans htakes.suffix, htakes'⟩
    · obtain ⟨ds, e, next, hds, htakes'⟩ := ih hlater
      exact ⟨ds, e, next,
        hds.trans ((List.suffix_cons _ _).trans (hinner.suffix.trans htakes.suffix)), htakes'⟩

theorem Builds.takes_leaf {cs after : List Located} {nodes : List Node} {node : Node}
    (h : Builds size cs nodes after) (hoccurs : node.Occurs nodes) (hleaf : node.body? = none) :
    ∃ ds next, ds <:+ cs ∧ Takes size ds (.leaf node) next := by
  obtain ⟨ds, e, next, hds, _, htakes, hmakes⟩ := h.exists_takes hoccurs
  cases e with
  | leaf =>
    obtain rfl := hmakes
    exact ⟨ds, next, hds, htakes⟩
  | opens =>
    obtain ⟨_, _, rfl⟩ := hmakes
    simp at hleaf
  | closes => exact hmakes.elim

theorem Builds.reads {cs after : List Located} {nodes : List Node} (h : Builds size cs nodes after)
    (hrising : Located.Rising size cs) : Reads size cs nodes after := by
  induction h with
  | finish => exact .finish
  | close hclose => exact .close hclose
  | filler hfill _ ih => exact .filler hfill (ih (hrising.suffix (List.suffix_cons _ _)))
  | @leaf cs next after node nodes hstart htakes _ ih =>
    cases cs with
    | nil => exact hstart.elim
    | cons c rest =>
      exact .leaf hstart.1 hstart.2 ((ofStart_eq_ok_iff hrising).2 htakes)
        (ih (hrising.suffix htakes.suffix))
  | @block close cs inner outer after start brace head body nodes hstart htakes hbody hbrace _
      ihbody ih =>
    cases cs with
    | nil => exact hstart.elim
    | cons c rest =>
      have hinner := hrising.suffix htakes.suffix
      exact .block hstart.1 hstart.2 ((ofStart_eq_ok_iff hrising).2 htakes) (ihbody hinner) hbrace
        (ih (hinner.suffix ((List.suffix_cons close outer).trans hbody.suffix)))

theorem Reads.builds {cs after : List Located} {nodes : List Node} (h : Reads size cs nodes after)
    (hrising : Located.Rising size cs) : Builds size cs nodes after := by
  induction h with
  | finish => exact .finish
  | close hclose => exact .close hclose
  | filler hfill _ ih => exact .filler hfill (ih (hrising.suffix (List.suffix_cons _ _)))
  | leaf hfill hclose hstart _ ih =>
    have htakes := (ofStart_eq_ok_iff hrising).1 hstart
    exact .leaf ⟨hfill, hclose⟩ htakes (ih (hrising.suffix htakes.suffix))
  | @block c close rest inner outer after start brace head body nodes hfill hclose hstart _ hbrace _
      ihbody ih =>
    have htakes := (ofStart_eq_ok_iff hrising).1 hstart
    have hinner := hrising.suffix htakes.suffix
    have hbody := ihbody hinner
    exact .block ⟨hfill, hclose⟩ htakes hbody hbrace
      (ih (hinner.suffix ((List.suffix_cons close outer).trans hbody.suffix)))

/-- A source parses exactly if it is built up of statements from its first character to its last. -/
theorem parse_eq_ok_iff {source : String} {sheet : Sheet} :
    Sheet.parse source = .ok sheet ↔ sheet.source = source ∧
      Builds source.utf8ByteSize (Located.ofString source) sheet.nodes [] := by
  have hrising := Located.Rising.of_runs (Located.runs_ofString source)
  constructor
  · intro h
    obtain ⟨hsource, hreads⟩ := parse_reads h
    exact ⟨hsource, hreads.builds hrising⟩
  · rintro ⟨rfl, hbuilds⟩
    exact parse_of_reads (hbuilds.reads hrising)

end SheetPolicy.Event
