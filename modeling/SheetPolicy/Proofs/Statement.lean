import Mathlib
import SheetPolicy.Proofs.Reading

/-!
What one statement takes of the source. A node without a block takes its own text and then only
blanks and a semicolon (`Event.ofStart_leaf`); a statement that opens a block takes the text up to
and with its brace (`Event.ofStart_opens`). In both cases the excerpts lie within the text taken.
-/

namespace SheetPolicy

/-! ## Nodes, their spans and their texts -/

def Node.span : Node → Span
  | .rule head _ => head.span
  | .atRule head _ => head.span
  | .atStatement head => head.span
  | .declaration decl => decl.span
  | .comment c => c.span

/-- The selector, the parameters or the value of a node. -/
def Node.excerpt? : Node → Option Excerpt
  | .rule head _ => some head.selector
  | .atRule head _ => some head.params
  | .atStatement head => some head.params
  | .declaration decl => some decl.value
  | .comment _ => none

def Head.excerpt : Head → Excerpt
  | .rule selector => selector
  | .atRule _ params => params

@[simp] theorem Head.span_node (span : Span) (body : List Node) (head : Head) :
    (head.node span body).span = span := by
  cases head <;> rfl

@[simp] theorem Head.excerpt?_node (span : Span) (body : List Node) (head : Head) :
    (head.node span body).excerpt? = some head.excerpt := by
  cases head <;> rfl

/-! ## Where a statement ends -/

namespace Prelude

/-- A statement ends at a semicolon or a brace, or with the source. -/
theorem skip_terminator {depth : Nat} {cs after : List Located} {t : Located}
    (h : skip depth cs = .ok (t :: after)) : isTerminator t.char = true := by
  fun_induction skip depth cs with
  | case1 => simp at h
  | case2 depth c rest hend =>
    obtain ⟨rfl, _⟩ := by simpa using h
    exact hend.2
  | case3 depth c rest _ _ ih => exact ih h
  | case4 => simp at h
  | case5 depth c rest _ _ l tail hl _ _ ih => exact ih h
  | case6 depth c rest _ _ l tail hl _ _ ih => exact ih h

end Prelude

namespace Event

/-- A computation that succeeds has steps that succeed. -/
theorem bind_ok {ε α β : Type} {x : Except ε α} {f : α → Except ε β} {b : β}
    (h : (x >>= f) = .ok b) : ∃ a, x = .ok a ∧ f a = .ok b := by
  cases x with
  | error e => simp [bind, Except.bind] at h
  | ok a => exact ⟨a, rfl, h⟩

/-- The ways in which an at-rule is read, by what ends its parameters. -/
theorem ofAtRule_cases {size : Nat} {c : Located} {rest next : List Located} {e : Event}
    (h : ofAtRule size c rest = .ok (e, next)) :
    ∃ stop params, Prelude.skip 0 (rest.dropWhile fun d => isNameChar d.char) = .ok stop ∧
      Excerpt.cut (rest.dropWhile fun d => isNameChar d.char) (Located.startOf size stop) =
        .ok params ∧
      let name := Located.text (rest.takeWhile fun d => isNameChar d.char)
      (stop = [] ∧ next = [] ∧ e = .leaf (.atStatement ⟨⟨c.offset, size⟩, name, params⟩)) ∨
      ∃ t after, stop = t :: after ∧
        ((t.char = '{' ∧ next = after ∧ e = .opens c.offset t.offset (.atRule name params)) ∨
          (t.char = ';' ∧ next = after ∧
            e = .leaf (.atStatement ⟨⟨c.offset, t.stop⟩, name, params⟩)) ∨
          (t.char = '}' ∧ next = stop ∧
            e = .leaf (.atStatement ⟨⟨c.offset, t.offset⟩, name, params⟩))) := by
  unfold ofAtRule at h
  obtain ⟨stop, hstop, h⟩ := bind_ok h
  obtain ⟨params, hparams, h⟩ := bind_ok h
  refine ⟨stop, params, hstop, hparams, ?_⟩
  cases stop with
  | nil =>
    obtain ⟨rfl, rfl⟩ := by simpa [pure, Except.pure] using h
    exact .inl ⟨rfl, rfl, rfl⟩
  | cons t after =>
    refine .inr ⟨t, after, rfl, ?_⟩
    have hterm := Prelude.skip_terminator hstop
    by_cases hopen : t.char = '{'
    · obtain ⟨rfl, rfl⟩ := by simpa [pure, Except.pure, hopen] using h
      exact .inl ⟨hopen, rfl, rfl⟩
    · by_cases hsemi : t.char = ';'
      · obtain ⟨rfl, rfl⟩ := by simpa [pure, Except.pure, hsemi] using h
        exact .inr (.inl ⟨hsemi, rfl, rfl⟩)
      · obtain ⟨rfl, rfl⟩ := by simpa [pure, Except.pure, hopen, hsemi] using h
        exact .inr (.inr ⟨by simpa [Prelude.isTerminator, hopen, hsemi] using hterm, rfl, rfl⟩)

/-- The ways in which a style rule or a declaration is read, by what ends its first statement. -/
theorem ofStatement_cases {size : Nat} {c : Located} {rest next : List Located} {e : Event}
    (h : ofStatement size c rest = .ok (e, next)) :
    ∃ stop, Prelude.skip 0 (c :: rest) = .ok stop ∧
      ((∃ t after selector, stop = t :: after ∧ t.char = '{' ∧ next = after ∧
          Excerpt.cut (c :: rest) t.offset = .ok selector ∧
          e = .opens c.offset t.offset (.rule selector)) ∨
        ∃ decl gap, declaration c.offset (c :: rest) (Located.startOf size stop) = .ok decl ∧
          stop = gap ++ next ∧ (∀ d ∈ gap, d.char = ';') ∧ e = .leaf (.declaration decl)) := by
  unfold ofStatement at h
  obtain ⟨stop, hstop, h⟩ := bind_ok h
  refine ⟨stop, hstop, ?_⟩
  cases stop with
  | nil =>
    obtain ⟨decl, hdecl, h⟩ := bind_ok h
    obtain ⟨rfl, rfl⟩ := by simpa [pure, Except.pure] using h
    exact .inr ⟨decl, [], hdecl, rfl, by simp, rfl⟩
  | cons t after =>
    simp only at h
    by_cases hopen : t.char = '{'
    · rw [if_pos hopen] at h
      obtain ⟨selector, hselector, h⟩ := bind_ok h
      obtain ⟨rfl, rfl⟩ := by simpa [pure, Except.pure] using h
      exact .inl ⟨t, after, selector, rfl, hopen, rfl, hselector, rfl⟩
    · rw [if_neg hopen] at h
      obtain ⟨decl, hdecl, h⟩ := bind_ok h
      obtain ⟨rfl, rfl⟩ := by simpa [pure, Except.pure] using h
      by_cases hsemi : t.char = ';'
      · exact .inr ⟨decl, [t], hdecl, by simp [hsemi], by simp [hsemi], rfl⟩
      · exact .inr ⟨decl, [], hdecl, by simp [hsemi], by simp, rfl⟩

/-! ## Declarations -/

/-- What starts before where `tail` starts is what stands before it. -/
theorem takeWhile_lt_startOf {size : Nat} {taken tail : List Located}
    (h : Located.Rising size (taken ++ tail)) :
    (taken ++ tail).takeWhile (fun c => c.offset < Located.startOf size tail) = taken := by
  rw [List.takeWhile_append_of_pos]
  · cases tail <;> simp
  · intro c hc
    simpa using h.lt_startOf hc

/-- What starts after a character is what follows it. -/
theorem dropWhile_le_offset {size : Nat} {before after : List Located} {c : Located}
    (h : Located.Rising size (before ++ c :: after)) :
    (before ++ c :: after).dropWhile (fun d => d.offset ≤ c.offset) = after := by
  rw [List.dropWhile_append_of_pos, List.dropWhile_cons_of_pos (by simp)]
  · cases after with
    | nil => rfl
    | cons d after =>
      have hd := (List.pairwise_cons.1 h.right.ordered).1 d List.mem_cons_self
      rw [List.dropWhile_cons_of_neg]
      simpa using hd
  · intro d hd
    have hlt := h.lt_startOf hd
    rw [Located.startOf_cons] at hlt
    simpa using hlt.le

/-- The text of a declaration: what starts before `stop`, without the blanks at its end. -/
def declarationText (cs : List Located) (stop : Nat) : List Located :=
  Text.dropRightWhile (fun c => Text.isBlank c.char) (cs.takeWhile fun c => c.offset < stop)

/-- Where a declaration's text ends. -/
def declarationStop (cs : List Located) (stop : Nat) : Nat :=
  Located.startOf stop
    ((cs.takeWhile fun c => c.offset < stop).drop (declarationText cs stop).length)

/-- A declaration is divided at the first colon of its text. -/
theorem declaration_cases {start stop : Nat} {cs : List Located} {decl : Declaration}
    (h : declaration start cs stop = .ok decl) :
    ∃ before colon after prop value, declarationText cs stop = before ++ colon :: after ∧
      colon.char = ':' ∧ (∀ c ∈ before, c.char ≠ ':') ∧
      Excerpt.cut cs colon.offset = .ok prop ∧
      Excerpt.cut (cs.dropWhile fun c => c.offset ≤ colon.offset) (declarationStop cs stop) =
        .ok value ∧
      decl = ⟨⟨start, declarationStop cs stop⟩, prop.text, value.splitImportant.1,
        value.splitImportant.2⟩ := by
  simp only [declaration] at h
  split at h
  · simp [throw, throwThe, MonadExceptOf.throw] at h
  · rename_i colon hcolon
    change (declarationText cs stop).find? _ = some colon at hcolon
    obtain ⟨hchar, before, after, htext, hbefore⟩ := List.find?_eq_some_iff_append.1 hcolon
    obtain ⟨prop, hprop, h⟩ := bind_ok h
    obtain ⟨value, hvalue, h⟩ := bind_ok h
    refine ⟨before, colon, after, prop, value, htext, by simpa using hchar, ?_, hprop, hvalue, ?_⟩
    · simpa using hbefore
    · simpa [pure, Except.pure, declarationStop, declarationText] using h.symm

/-- The text of a declaration before `tail` is followed by blanks only. -/
theorem declarationText_append {size : Nat} {taken tail : List Located}
    (h : Located.Rising size (taken ++ tail)) :
    ∃ text gap, taken = text ++ gap ∧
      declarationText (taken ++ tail) (Located.startOf size tail) = text ∧
      declarationStop (taken ++ tail) (Located.startOf size tail) =
        Located.startOf size (gap ++ tail) ∧
      ∀ c ∈ gap, Text.isBlank c.char = true := by
  have htake := takeWhile_lt_startOf h
  let blank : Located → Bool := fun c => Text.isBlank c.char
  refine ⟨Text.dropRightWhile blank taken, taken.drop (Text.dropRightWhile blank taken).length,
    (Excerpt.dropRightWhile_append_drop blank taken).symm, ?_, ?_, ?_⟩
  · rw [declarationText, htake]
  · rw [declarationStop, declarationText, htake, Located.startOf_append]
  · exact fun c hc => (Excerpt.of_mem_drop_dropRightWhile hc : blank c = true)

/-- A declaration takes the text before `tail` up to the blanks at its end, and its value lies
within that text. -/
theorem declaration_takes {source : String} {before taken tail : List Located} {decl : Declaration}
    (hsource : Located.ofString source = before ++ (taken ++ tail))
    (h : declaration (Located.size before) (taken ++ tail)
      (Located.startOf source.utf8ByteSize tail) = .ok decl) :
    ∃ text gap, taken = text ++ gap ∧ text ≠ [] ∧
      decl.span = ⟨Located.size before, Located.size before + Located.size text⟩ ∧
      (∀ c ∈ gap, Text.isBlank c.char = true) ∧
      Excerpt.IsFrom source decl.span.start decl.span.stop decl.value := by
  have hruns := Located.runs_ofString source
  rw [hsource] at hruns
  have hall := hruns.of_append.2
  rw [Nat.zero_add] at hall
  obtain ⟨front, colon, back, prop, value, htext, _, _, _, hvalue, rfl⟩ := declaration_cases h
  obtain ⟨text, gap, rfl, htext', hstop, hblank⟩ := declarationText_append (.of_runs hall)
  obtain rfl : text = front ++ colon :: back := htext'.symm.trans htext
  rw [hstop] at hvalue ⊢
  rw [List.append_assoc] at hsource hall hvalue
  obtain ⟨_, hrest⟩ := hall.of_append
  have hend := hrest.startOf_eq
  refine ⟨front ++ colon :: back, gap, rfl, by simp, by rw [hend], hblank, ?_⟩
  -- The value is cut out of what follows the colon.
  rw [List.append_assoc, List.cons_append] at hsource hall hvalue
  rw [dropWhile_le_offset (.of_runs hall)] at hvalue
  obtain ⟨_, hcolon, hback⟩ := hall.of_append
  have hsuffix : back ++ (gap ++ tail) <:+ Located.ofString source := by
    rw [hsource]
    exact ⟨before ++ (front ++ [colon]), by simp⟩
  have hcut : Located.IsCut (Located.ofString source) source.utf8ByteSize
      (Located.startOf source.utf8ByteSize (gap ++ tail)) :=
    Located.isCut_startOf fun c hc => hsuffix.subset (List.mem_append_right _ hc)
  have hlow := hback.startOf_eq
  have := hback.of_append.2.startOf_eq
  have := colon.offset_lt_stop
  refine Excerpt.splitImportant_isFrom
    ((Excerpt.cut_isFrom hsuffix hcut (by omega) hvalue).mono ?_ le_rfl)
  simp only
  omega

/-! ## What an event takes -/

/-- Between nodes: a blank or a semicolon. -/
def IsGap (c : Located) : Prop :=
  Text.isBlank c.char = true ∨ c.char = ';'

/-- A node without a block takes its own text, which its span covers, and a gap after it. -/
structure TakesLeaf (source : String) (cs : List Located) (node : Node) (next : List Located) :
    Prop where
  split : ∃ text gap, cs = text ++ (gap ++ next) ∧ text ≠ [] ∧ (∀ c ∈ gap, IsGap c) ∧
    node.span = ⟨Located.startOf source.utf8ByteSize cs,
      Located.startOf source.utf8ByteSize cs + Located.size text⟩
  excerpt : ∀ e, node.excerpt? = some e → Excerpt.IsFrom source node.span.start node.span.stop e

/-- What opens a block takes the text up to its brace, and the brace. -/
structure TakesHead (source : String) (cs : List Located) (start brace : Nat) (head : Head)
    (inner : List Located) : Prop where
  split : ∃ text b, cs = text ++ b :: inner ∧ b.char = '{' ∧ b.offset = brace
  start_eq : start = Located.startOf source.utf8ByteSize cs
  excerpt : Excerpt.IsFrom source start brace head.excerpt

variable {source : String} {before rest next inner : List Located} {c : Located}

/-- What is read from a place of the source on. -/
theorem runs_of_source (hsource : Located.ofString source = before ++ c :: rest) :
    Located.Runs c.offset (c :: rest) source.utf8ByteSize := by
  have hruns := Located.runs_ofString source
  rw [hsource] at hruns
  have h := hruns.of_append.2
  rwa [← h.1] at h

theorem ofComment_takesLeaf {node : Node} (hsource : Located.ofString source = before ++ c :: rest)
    (hmark : rest.head?.map Located.char = some '*')
    (h : ofComment source.utf8ByteSize c rest = .ok (.leaf node, next)) :
    TakesLeaf source (c :: rest) node next := by
  have hruns := runs_of_source hsource
  cases rest with
  | nil => simp at hmark
  | cons d rest =>
    unfold ofComment at h
    rw [List.tail_cons] at h
    cases hclose : Lexeme.closeComment rest with
    | none => simp [hclose] at h
    | some pair =>
      obtain ⟨body, after⟩ := pair
      obtain ⟨rfl, rfl⟩ := by simpa [hclose] using h
      have happ := Lexeme.closeComment_append hclose
      subst happ
      rw [← List.cons_append, ← List.cons_append] at hruns
      have hend := hruns.of_append.2.startOf_eq
      refine ⟨⟨c :: d :: body, [], by simp, by simp, by simp, ?_⟩, by simp [Node.excerpt?]⟩
      simp [Node.span, hend]

theorem ofComment_ne_opens {start brace : Nat} {head : Head} {size : Nat}
    (h : ofComment size c rest = .ok (.opens start brace head, inner)) : False := by
  unfold ofComment at h
  split at h <;> simp at h

/-- The parameters of an at-rule lie between its name and what ends them. -/
theorem params_isFrom {stop : List Located} {params : Excerpt}
    (hsource : Located.ofString source = before ++ c :: rest)
    (hstop : Prelude.skip 0 (rest.dropWhile fun d => isNameChar d.char) = .ok stop)
    (hparams : Excerpt.cut (rest.dropWhile fun d => isNameChar d.char)
      (Located.startOf source.utf8ByteSize stop) = .ok params) :
    ∃ taken, rest = taken ++ stop ∧
      Excerpt.IsFrom source c.offset (Located.startOf source.utf8ByteSize stop) params := by
  have hruns := runs_of_source hsource
  have happ := List.takeWhile_append_dropWhile (p := fun d : Located => isNameChar d.char)
    (l := rest)
  generalize rest.takeWhile (fun d => isNameChar d.char) = name at happ
  generalize rest.dropWhile (fun d => isNameChar d.char) = tail at happ hstop hparams
  obtain ⟨taken, rfl⟩ := Prelude.skip_suffix hstop
  subst happ
  obtain ⟨_, hrest⟩ := hruns
  obtain ⟨_, htail⟩ := hrest.of_append
  have hsuffix : taken ++ stop <:+ Located.ofString source := by
    rw [hsource]
    exact ⟨before ++ c :: name, by simp⟩
  have hcut : Located.IsCut (Located.ofString source) source.utf8ByteSize
      (Located.startOf source.utf8ByteSize stop) :=
    Located.isCut_startOf fun d hd => hsuffix.subset (List.mem_append_right _ hd)
  have hlow := htail.startOf_eq
  have hhigh := htail.of_append.2.startOf_eq
  have := c.offset_lt_stop
  refine ⟨name ++ taken, by simp, ?_⟩
  exact (Excerpt.cut_isFrom hsuffix hcut (by omega) hparams).mono (by omega) le_rfl

/-- An at-rule without a block that ends where `next` starts. -/
theorem atStatement_takesLeaf {text : List Located} {high : Nat} {name : String} {params : Excerpt}
    (hsource : Located.ofString source = before ++ c :: rest) (hsplit : rest = text ++ next)
    (hfrom : Excerpt.IsFrom source c.offset high params)
    (hhigh : high ≤ Located.startOf source.utf8ByteSize next) :
    TakesLeaf source (c :: rest)
      (.atStatement ⟨⟨c.offset, Located.startOf source.utf8ByteSize next⟩, name, params⟩) next := by
  have hruns := runs_of_source hsource
  subst hsplit
  rw [← List.cons_append] at hruns
  have hend := hruns.of_append.2.startOf_eq
  refine ⟨⟨c :: text, [], by simp, by simp, by simp, by simp [Node.span, hend]⟩, ?_⟩
  intro e he
  obtain rfl := by simpa [Node.excerpt?] using he
  exact hfrom.mono le_rfl hhigh

theorem ofAtRule_takesLeaf {node : Node} (hsource : Located.ofString source = before ++ c :: rest)
    (h : ofAtRule source.utf8ByteSize c rest = .ok (.leaf node, next)) :
    TakesLeaf source (c :: rest) node next := by
  have hruns := runs_of_source hsource
  obtain ⟨stop, params, hstop, hparams, hcases⟩ := ofAtRule_cases h
  obtain ⟨taken, htaken, hfrom⟩ := params_isFrom hsource hstop hparams
  rcases hcases with ⟨rfl, rfl, hnode⟩ |
    ⟨t, after, rfl, ⟨_, _, hnode⟩ | ⟨_, rfl, hnode⟩ | ⟨_, rfl, hnode⟩⟩
  · obtain rfl := by simpa using hnode
    exact atStatement_takesLeaf hsource htaken hfrom le_rfl
  · simp at hnode
  · -- The semicolon belongs to the node.
    obtain rfl := by simpa using hnode
    rw [htaken, ← List.cons_append] at hruns
    obtain ⟨_, ht, hafter⟩ := hruns.of_append
    have hend := hafter.startOf_eq
    have := t.offset_lt_stop
    have hsplit : rest = (taken ++ [t]) ++ next := by simp [htaken]
    rw [← hend]
    refine atStatement_takesLeaf hsource hsplit hfrom ?_
    rw [Located.startOf_cons]
    omega
  · obtain rfl := by simpa using hnode
    exact atStatement_takesLeaf hsource htaken hfrom le_rfl

theorem ofAtRule_takesHead {start brace : Nat} {head : Head}
    (hsource : Located.ofString source = before ++ c :: rest)
    (h : ofAtRule source.utf8ByteSize c rest = .ok (.opens start brace head, inner)) :
    TakesHead source (c :: rest) start brace head inner := by
  obtain ⟨stop, params, hstop, hparams, hcases⟩ := ofAtRule_cases h
  obtain ⟨taken, htaken, hfrom⟩ := params_isFrom hsource hstop hparams
  rcases hcases with ⟨_, _, hevent⟩ |
    ⟨t, after, rfl, ⟨hopen, rfl, hevent⟩ | ⟨_, _, hevent⟩ | ⟨_, _, hevent⟩⟩
  · simp at hevent
  · obtain ⟨rfl, rfl, rfl⟩ := by simpa using hevent
    exact ⟨⟨c :: taken, t, by simp [htaken], hopen, rfl⟩, rfl, hfrom⟩
  · simp at hevent
  · simp at hevent

/-! ### Style rules and declarations -/

theorem ofStatement_takesLeaf {node : Node}
    (hsource : Located.ofString source = before ++ c :: rest)
    (h : ofStatement source.utf8ByteSize c rest = .ok (.leaf node, next)) :
    TakesLeaf source (c :: rest) node next := by
  obtain ⟨stop, hstop, hcases⟩ := ofStatement_cases h
  rcases hcases with ⟨_, _, _, _, _, _, _, hevent⟩ | ⟨decl, semi, hdecl, rfl, hsemi, hevent⟩
  · simp at hevent
  · obtain rfl := by simpa using hevent
    obtain ⟨taken, htaken⟩ := Prelude.skip_suffix hstop
    have hruns := Located.runs_ofString source
    rw [hsource] at hruns
    have hstart := hruns.of_append.2.1
    rw [Nat.zero_add] at hstart
    rw [← htaken] at hsource
    rw [hstart, ← htaken] at hdecl
    obtain ⟨text, gap, rfl, hne, hspan, hgap, hfrom⟩ := declaration_takes hsource hdecl
    refine ⟨⟨text, gap ++ semi, by simp [← htaken], hne, ?_, ?_⟩, ?_⟩
    · intro d hd
      rcases List.mem_append.1 hd with hd | hd
      · exact .inl (hgap d hd)
      · exact .inr (hsemi d hd)
    · rw [Located.startOf_cons, hstart]
      exact hspan
    · intro e he
      obtain rfl := by simpa [Node.excerpt?] using he
      exact hfrom

theorem ofStatement_takesHead {start brace : Nat} {head : Head}
    (hsource : Located.ofString source = before ++ c :: rest)
    (h : ofStatement source.utf8ByteSize c rest = .ok (.opens start brace head, inner)) :
    TakesHead source (c :: rest) start brace head inner := by
  have hruns := runs_of_source hsource
  obtain ⟨stop, hstop, hcases⟩ := ofStatement_cases h
  rcases hcases with
    ⟨t, after, selector, rfl, hopen, rfl, hselector, hevent⟩ | ⟨_, _, _, _, _, hevent⟩
  · obtain ⟨rfl, rfl, rfl⟩ := by simpa using hevent
    obtain ⟨taken, htaken⟩ := Prelude.skip_suffix hstop
    refine ⟨⟨taken, t, htaken.symm, hopen, rfl⟩, rfl, ?_⟩
    have hsuffix : c :: rest <:+ Located.ofString source := ⟨before, hsource.symm⟩
    have ht : t ∈ c :: rest := by rw [← htaken]; simp
    exact Excerpt.cut_isFrom hsuffix (.inr ⟨t, hsuffix.subset ht, rfl⟩) (hruns.offset_mem ht).1
      hselector
  · simp at hevent

/-- Reading a node without a block. -/
theorem ofStart_leaf {node : Node} (hsource : Located.ofString source = before ++ c :: rest)
    (h : ofStart source.utf8ByteSize c rest = .ok (.leaf node, next)) :
    TakesLeaf source (c :: rest) node next := by
  unfold ofStart at h
  split at h
  · exact ofAtRule_takesLeaf hsource h
  · split at h
    · rename_i hmark
      exact ofComment_takesLeaf hsource hmark.2 h
    · exact ofStatement_takesLeaf hsource h

/-- Reading what opens a block. -/
theorem ofStart_opens {start brace : Nat} {head : Head}
    (hsource : Located.ofString source = before ++ c :: rest)
    (h : ofStart source.utf8ByteSize c rest = .ok (.opens start brace head, inner)) :
    TakesHead source (c :: rest) start brace head inner := by
  unfold ofStart at h
  split at h
  · exact ofAtRule_takesHead hsource h
  · split at h
    · exact (ofComment_ne_opens h).elim
    · exact ofStatement_takesHead hsource h

end Event

end SheetPolicy
