import SheetPolicy.Selector.Component
import SheetPolicy.Text.Located
import SheetPolicy.Text.Vendor

/-!
A selector list as a flat list of events, and the tree as a fold over them. The events come from one
scan from left to right that keeps the parentheses still open and whether the current selector has
a component yet.
-/

namespace SheetPolicy.Selector

inductive Event where
  | unit (simple : Simple)
  /-- The parenthesis at `paren` opens the arguments of `pseudo`. -/
  | opens (pseudo : Simple) (paren : Nat)
  | comma
  | closes
deriving DecidableEq

/-- The pseudo-classes whose argument is a list of selectors. -/
def takesSelectors : List String :=
  ["any", "current", "deep", "future", "global", "has", "host", "host-context", "is", "local",
    "matches", "not", "past", "slotted", "where"]

def isNameChar (c : Char) : Bool :=
  Text.isAsciiAlphanumeric c || c == '-' || c == '_' || c == '|' || c == '%' || 127 < c.toNat

def isCombinator (c : Char) : Bool :=
  c == '>' || c == '+' || c == '~'

/-- Drops the blanks at the start. -/
def skipSpace (cs : List Located) : List Located :=
  cs.dropWhile fun c => Text.isSpace c.char

/-- The name at the start, escaped characters included, and what follows. -/
def name : List Located → List Located × List Located
  | [] => ([], [])
  | c :: rest =>
    if c.char = '\\' then
      match rest with
      | [] => ([c], [])
      | d :: rest' =>
        let (body, after) := name rest'
        (c :: d :: body, after)
    else if isNameChar c.char then
      let (body, after) := name rest
      (c :: body, after)
    else ([], c :: rest)

/-- The quote that is open after a character. -/
def quoteAfter (c : Char) : Option Char → Option Char
  | some q => if c = q then none else some q
  | none => if c = '"' ∨ c = '\'' then some c else none

/-- The bracket depth after a character. -/
def depthAfter (left right : Char) (depth : Nat) (quote : Option Char) (c : Char) : Nat :=
  if quote.isSome then depth
  else if c = left then depth + 1
  else if c = right then depth - 1
  else depth

/-- A bracketed group from its opening bracket on, up to the bracket that closes it, and what
follows. Brackets inside quotes and escaped characters do not count. -/
def group (left right : Char) (depth : Nat) (quote : Option Char) :
    List Located → Option (List Located × List Located)
  | [] => none
  | c :: rest =>
    if c.char = '\\' then
      match rest with
      | [] => none
      | d :: rest' =>
        (group left right depth quote rest').map fun (body, after) => (c :: d :: body, after)
    else if quote = none ∧ c.char = right ∧ depth = 1 then some ([c], rest)
    else
      (group left right (depthAfter left right depth quote c.char) (quoteAfter c.char quote)
        rest).map fun (body, after) => (c :: body, after)

/-- The pseudo-class or pseudo-element that starts with `colons` at `index` and goes on with the
name at the start of `cs`. -/
def Event.named (index : Nat) (colons cs : List Located) : Except Error (Event × List Located) :=
  match name cs with
  | ([], _) => .error (.expectedName index)
  | (body, after) =>
    let pseudo : Simple := ⟨.pseudo, Located.text (colons ++ body), index⟩
    match after with
    | paren :: inner =>
      if paren.char = '(' then
        if takesSelectors.contains (Text.withoutVendor (Text.lower (Located.text body))) then
          .ok (.opens pseudo paren.offset, inner)
        else
          match group '(' ')' 0 none after with
          | some (_, beyond) => .ok (.unit pseudo, beyond)
          | none => .error (.unclosed paren.offset)
      else .ok (.unit pseudo, after)
    | [] => .ok (.unit pseudo, [])

/-- The pseudo-class or pseudo-element whose first colon is `c`. -/
def Event.ofPseudo (c : Located) (rest : List Located) : Except Error (Event × List Located) :=
  match rest with
  | d :: rest' => if d.char = ':' then named c.offset [c, d] rest' else named c.offset [c] rest
  | [] => named c.offset [c] []

/-- The component that starts with `c`, which is no blank, combinator, comma or closing
parenthesis. -/
def Event.ofStart (c : Located) (rest : List Located) : Except Error (Event × List Located) :=
  if c.char = '.' ∨ c.char = '#' then
    match name rest with
    | ([], _) => .error (.expectedName c.offset)
    | (body, after) =>
      let kind := if c.char = '.' then .className else .idName
      .ok (.unit ⟨kind, Located.text (c :: body), c.offset⟩, after)
  else if c.char = '*' then .ok (.unit ⟨.universal, "*", c.offset⟩, rest)
  else if c.char = '&' then .ok (.unit ⟨.nesting, "&", c.offset⟩, rest)
  else if c.char = '[' then
    match group '[' ']' 0 none (c :: rest) with
    | some (body, after) => .ok (.unit ⟨.attribute, Located.text body, c.offset⟩, after)
    | none => .error (.unclosed c.offset)
  else if c.char = ':' then ofPseudo c rest
  else if isNameChar c.char then
    let (body, after) := name rest
    .ok (.unit ⟨.tag, Located.text (c :: body), c.offset⟩, after)
  else .error (.unexpectedCharacter c.char c.offset)

/-- The parentheses that are open after an event, innermost first. -/
def Event.openAfter (parens : List Nat) : Event → List Nat
  | .opens _ paren => paren :: parens
  | .closes => parens.tail
  | _ => parens

/-- After the event a selector starts that has no component yet. -/
def Event.startsSelector : Event → Bool
  | .opens _ _ | .comma => true
  | .unit _ | .closes => false

theorem length_skipSpace (cs : List Located) : (skipSpace cs).length ≤ cs.length :=
  (List.dropWhile_suffix _).length_le

theorem name_append (cs : List Located) : (name cs).1 ++ (name cs).2 = cs := by
  fun_induction name cs <;> simp_all

theorem length_name (cs : List Located) : (name cs).2.length ≤ cs.length := by
  have h := congrArg List.length (name_append cs)
  simp only [List.length_append] at h
  omega

theorem group_eq_cons {left right : Char} {depth : Nat} {quote : Option Char}
    {cs body after : List Located} (h : group left right depth quote cs = some (body, after)) :
    ∃ c tail, body = c :: tail ∧ cs = body ++ after := by
  fun_induction group left right depth quote cs generalizing body after with
  | case1 => simp at h
  | case2 => simp at h
  | case3 _ _ c _ d _ ih =>
    obtain ⟨⟨b, a⟩, hb, heq⟩ := Option.map_eq_some_iff.1 h
    obtain ⟨rfl, rfl⟩ := by simpa using heq
    obtain ⟨_, _, _, happ⟩ := ih hb
    exact ⟨c, _, rfl, by simp [happ]⟩
  | case4 _ _ c =>
    obtain ⟨rfl, rfl⟩ := by simpa using h
    exact ⟨c, [], rfl, rfl⟩
  | case5 _ _ c _ _ _ ih =>
    obtain ⟨⟨b, a⟩, hb, heq⟩ := Option.map_eq_some_iff.1 h
    obtain ⟨rfl, rfl⟩ := by simpa using heq
    obtain ⟨_, _, _, happ⟩ := ih hb
    exact ⟨c, _, rfl, by simp [happ]⟩

theorem length_group {left right : Char} {depth : Nat} {quote : Option Char} {c : Located}
    {rest body after : List Located}
    (h : group left right depth quote (c :: rest) = some (body, after)) :
    after.length ≤ rest.length := by
  obtain ⟨d, tail, rfl, happ⟩ := group_eq_cons h
  have := congrArg List.length happ
  simp at this
  omega

theorem length_named {index : Nat} {colons cs after : List Located} {e : Event}
    (h : Event.named index colons cs = .ok (e, after)) : after.length ≤ cs.length := by
  have hname := length_name cs
  unfold Event.named at h
  split at h
  · simp at h
  · rename_i body beyond _ hn
    rw [hn] at hname
    simp only at h hname
    split at h
    · simp only [List.length_cons] at hname
      split at h
      · split at h
        · obtain ⟨_, rfl⟩ := by simpa using h
          omega
        · split at h
          · rename_i hg
            have := length_group hg
            obtain ⟨_, rfl⟩ := by simpa using h
            omega
          · simp at h
      · obtain ⟨_, rfl⟩ := by simpa using h
        simpa using hname
    · obtain ⟨_, rfl⟩ := by simpa using h
      simp

theorem length_ofPseudo {c : Located} {rest after : List Located} {e : Event}
    (h : Event.ofPseudo c rest = .ok (e, after)) : after.length ≤ rest.length := by
  unfold Event.ofPseudo at h
  split at h
  · split at h
    · exact Nat.le_succ_of_le (length_named h)
    · exact length_named h
  · exact length_named h

/-- A component takes at least its first character. -/
theorem length_ofStart {c : Located} {rest after : List Located} {e : Event}
    (h : Event.ofStart c rest = .ok (e, after)) : after.length ≤ rest.length := by
  have hname := length_name rest
  unfold Event.ofStart at h
  split at h
  · split at h
    · simp at h
    · rename_i hn
      rw [hn] at hname
      obtain ⟨_, rfl⟩ := by simpa using h
      exact hname
  split at h
  · obtain ⟨_, rfl⟩ := by simpa using h
    simp
  split at h
  · obtain ⟨_, rfl⟩ := by simpa using h
    simp
  split at h
  · split at h
    · rename_i hg
      have := length_group hg
      obtain ⟨_, rfl⟩ := by simpa using h
      omega
    · simp at h
  split at h
  · exact length_ofPseudo h
  split at h
  · obtain ⟨_, rfl⟩ := by simpa using h
    exact hname
  · simp at h

/-- The events of a text of `size` bytes, from where the parentheses `parens` are still open.
`fresh` says that the current selector has no component yet. -/
def Event.scan (size : Nat) (parens : List Nat) (fresh : Bool) :
    List Located → Except Error (List Event)
  | [] =>
    if fresh then .error (.emptySelector size)
    else
      match parens with
      | [] => .ok []
      | paren :: _ => .error (.unclosed paren)
  | c :: rest =>
    if c.char = ',' then
      if fresh then .error (.emptySelector c.offset)
      else (scan size parens true (skipSpace rest)).map (.comma :: ·)
    else if c.char = ')' then
      if fresh then .error (.emptySelector c.offset)
      else
        match parens with
        | [] => .error (.unexpectedCharacter ')' c.offset)
        | _ :: outer => (scan size outer false rest).map (.closes :: ·)
    else if isCombinator c.char then
      (scan size parens false (skipSpace rest)).map
        (.unit ⟨.combinator, c.char.toString, c.offset⟩ :: ·)
    else if Text.isSpace c.char then
      match h : skipSpace rest with
      | [] => scan size parens fresh []
      | d :: after =>
        have : after.length + 1 ≤ rest.length := by simpa [h] using length_skipSpace rest
        if isCombinator d.char then
          (scan size parens false (skipSpace after)).map
            (.unit ⟨.combinator, d.char.toString, c.offset⟩ :: ·)
        else if d.char = ',' ∨ d.char = ')' then scan size parens fresh (d :: after)
        else (scan size parens false (d :: after)).map
          (.unit ⟨.combinator, " ", c.offset⟩ :: ·)
    else
      match h : ofStart c rest with
      | .error e => .error e
      | .ok (event, after) =>
        have := length_ofStart h
        let next := if event.startsSelector then skipSpace after else after
        (scan size (event.openAfter parens) event.startsSelector next).map (event :: ·)
termination_by cs => cs.length
decreasing_by
  · have := length_skipSpace rest
    simp; omega
  · simp
  · have := length_skipSpace rest
    simp; omega
  · simp
  · have := length_skipSpace after
    simp; omega
  · simp; omega
  · simp; omega
  · have := length_skipSpace after
    simp only [List.length_cons]
    split <;> omega

/-- A list of selectors under construction from its end: the components of the current selector
that follow, the selectors that follow it in its list, and the same for each list around. -/
structure Pending where
  components : List Component
  selectors : List (List Component)
  outer : List (List Component × List (List Component))

/-- Puts an event in front. Between balanced events every parenthesis that opens has its end on
the stack. -/
def Pending.push : Event → Pending → Pending
  | .unit simple, p => { p with components := .simple simple :: p.components }
  | .comma, p => { p with components := [], selectors := p.components :: p.selectors }
  | .closes, p => ⟨[], [], (p.components, p.selectors) :: p.outer⟩
  | .opens pseudo _, ⟨components, selectors, (components', selectors') :: outer⟩ =>
    ⟨.applied pseudo (components :: selectors) :: components', selectors', outer⟩
  | .opens pseudo _, ⟨components, selectors, []⟩ =>
    ⟨[.applied pseudo (components :: selectors)], [], []⟩

/-- The selectors that the events describe. -/
def selectors (events : List Event) : List (List Component) :=
  let p := events.foldr Pending.push ⟨[], [], []⟩
  p.components :: p.selectors

/-- Reads a list of selectors. -/
def parse (text : String) : Except Error (List (List Component)) :=
  (Event.scan text.utf8ByteSize [] true (skipSpace (Located.ofString text))).map selectors

end SheetPolicy.Selector
