import SheetPolicy.Sheet.Node
import SheetPolicy.Sheet.Prelude

/-!
A source as a flat list of events: a block opens, a block closes, a node without a block. The events
are found from left to right (`Event.scan`), and the tree is a fold over them from right to left
(`Event.nodes`).
-/

namespace SheetPolicy

/-- What stands before a block. -/
inductive Head where
  | rule (selector : Excerpt)
  | atRule (name : String) (params : Excerpt)
deriving DecidableEq

def Head.node (span : Span) (body : List Node) : Head → Node
  | .rule selector => .rule ⟨span, selector⟩ body
  | .atRule name params => .atRule ⟨span, name, params⟩ body

inductive Event where
  /-- The statement from `start` on opens a block with the brace at `brace`. -/
  | opens (start brace : Nat) (head : Head)
  /-- A block ends just before `stop`. -/
  | closes (stop : Nat)
  | leaf (node : Node)

namespace Event

/-- The characters of an at-rule's name. -/
def isNameChar (c : Char) : Bool :=
  Text.isAsciiAlphanumeric c || c == '-' || c == '_' || 127 < c.toNat

/-- The declaration that stands before `stop`. The first colon divides it, wherever it stands. -/
def declaration (start : Nat) (cs : List Located) (stop : Nat) :
    Except ParseError Declaration := do
  let range := cs.takeWhile fun c => c.offset < stop
  let body := Text.dropRightWhile (fun c => Text.isBlank c.char) range
  let last := Located.startOf stop (range.drop body.length)
  match body.find? fun c => c.char = ':' with
  | none => throw (.unknownWord start (Located.text body))
  | some colon =>
    let prop ← Excerpt.cut cs colon.offset
    let value ← Excerpt.cut (cs.dropWhile fun c => c.offset ≤ colon.offset) last
    let (value, important) := value.splitImportant
    return ⟨⟨start, last⟩, prop.text, value, important⟩

/-- The comment whose opening mark is `c` and the first of `rest`. -/
def ofComment (size : Nat) (c : Located) (rest : List Located) :
    Except ParseError (Event × List Located) :=
  match Lexeme.closeComment rest.tail with
  | none => .error (.unclosedComment c.offset)
  | some (body, after) =>
    let text := Text.trim (Located.text (body.take (body.length - 2)))
    .ok (.leaf (.comment ⟨⟨c.offset, Located.startOf size after⟩, text⟩), after)

/-- The at-rule whose sign is `c`. -/
def ofAtRule (size : Nat) (c : Located) (rest : List Located) :
    Except ParseError (Event × List Located) := do
  let name := Located.text (rest.takeWhile fun d => isNameChar d.char)
  let tail := rest.dropWhile fun d => isNameChar d.char
  let stop ← Prelude.skip 0 tail
  let params ← Excerpt.cut tail (Located.startOf size stop)
  match stop with
  | [] => return (.leaf (.atStatement ⟨⟨c.offset, size⟩, name, params⟩), [])
  | t :: after =>
    if t.char = '{' then return (.opens c.offset t.offset (.atRule name params), after)
    else if t.char = ';' then
      return (.leaf (.atStatement ⟨⟨c.offset, t.stop⟩, name, params⟩), after)
    else return (.leaf (.atStatement ⟨⟨c.offset, t.offset⟩, name, params⟩), t :: after)

/-- The style rule or declaration that starts with `c`. -/
def ofStatement (size : Nat) (c : Located) (rest : List Located) :
    Except ParseError (Event × List Located) := do
  let stop ← Prelude.skip 0 (c :: rest)
  match stop with
  | [] =>
    let decl ← declaration c.offset (c :: rest) size
    return (.leaf (.declaration decl), [])
  | t :: after =>
    if t.char = '{' then
      let selector ← Excerpt.cut (c :: rest) t.offset
      return (.opens c.offset t.offset (.rule selector), after)
    else
      let decl ← declaration c.offset (c :: rest) t.offset
      return (.leaf (.declaration decl), if t.char = ';' then after else t :: after)

/-- The event that starts with `c`, which is no blank, semicolon or closing brace. -/
def ofStart (size : Nat) (c : Located) (rest : List Located) :
    Except ParseError (Event × List Located) :=
  if c.char = '@' then ofAtRule size c rest
  else if c.char = '/' ∧ rest.head?.map Located.char = some '*' then ofComment size c rest
  else ofStatement size c rest

/-- The braces of the blocks that are open after an event, innermost first. -/
def openAfter (braces : List Nat) : Event → List Nat
  | .opens _ brace _ => brace :: braces
  | .closes _ => braces.tail
  | .leaf _ => braces

theorem length_ofComment {size : Nat} {c : Located} {rest after : List Located} {e : Event}
    (h : ofComment size c rest = .ok (e, after)) : after.length ≤ rest.length := by
  unfold ofComment at h
  split at h
  · simp at h
  · rename_i body tail hs
    obtain ⟨_, rfl⟩ := by simpa using h
    have := congrArg List.length (Lexeme.closeComment_append hs)
    simp at this
    omega

theorem length_ofAtRule {size : Nat} {c : Located} {rest after : List Located} {e : Event}
    (h : ofAtRule size c rest = .ok (e, after)) : after.length ≤ rest.length := by
  simp only [ofAtRule, bind, Except.bind] at h
  have htail := (List.dropWhile_suffix (l := rest) fun d => isNameChar d.char).length_le
  split at h
  · simp at h
  · rename_i stop hstop
    have := (Prelude.skip_suffix hstop).length_le
    split at h
    · simp at h
    · split at h
      · obtain ⟨_, rfl⟩ := by simpa [pure, Except.pure] using h
        simp
      · simp only [List.length_cons] at this
        split at h
        · obtain ⟨_, rfl⟩ := by simpa [pure, Except.pure] using h
          omega
        · split at h <;>
          · obtain ⟨_, rfl⟩ := by simpa [pure, Except.pure] using h
            simp
            omega

theorem length_ofStatement {size : Nat} {c : Located} {rest after : List Located} {e : Event}
    (hc : c.char ≠ '}') (h : ofStatement size c rest = .ok (e, after)) :
    after.length ≤ rest.length := by
  simp only [ofStatement, bind, Except.bind] at h
  split at h
  · simp at h
  · rename_i stop hstop
    by_cases hterm : Prelude.isTerminator c.char = true
    · rw [Prelude.skip, if_pos ⟨rfl, hterm⟩] at hstop
      obtain rfl := by simpa using hstop
      simp only at h
      split at h
      · split at h
        · simp at h
        · obtain ⟨_, rfl⟩ := by simpa [pure, Except.pure] using h
          simp
      · split at h
        · simp at h
        · obtain ⟨_, rfl⟩ := by simpa [pure, Except.pure] using h
          have hsemi : c.char = ';' := by simp_all [Prelude.isTerminator]
          simp [hsemi]
    · have hlen := Prelude.length_skip_cons (fun hh => hterm hh.2) hstop
      split at h
      · split at h
        · simp at h
        · obtain ⟨_, rfl⟩ := by simpa [pure, Except.pure] using h
          simp
      · simp only [List.length_cons] at hlen
        split at h
        · split at h
          · simp at h
          · obtain ⟨_, rfl⟩ := by simpa [pure, Except.pure] using h
            omega
        · split at h
          · simp at h
          · obtain ⟨_, rfl⟩ := by simpa [pure, Except.pure] using h
            split <;> simp <;> omega

/-- An event takes at least its first character. -/
theorem length_ofStart {size : Nat} {c : Located} {rest after : List Located} {e : Event}
    (hc : c.char ≠ '}') (h : ofStart size c rest = .ok (e, after)) :
    after.length ≤ rest.length := by
  unfold ofStart at h
  split at h
  · exact length_ofAtRule h
  · split at h
    · exact length_ofComment h
    · exact length_ofStatement hc h

/-- The events of a source of `size` bytes, from where the blocks opened at `braces` are still
open. -/
def scan (size : Nat) (braces : List Nat) : List Located → Except ParseError (List Event)
  | [] =>
    match braces with
    | [] => .ok []
    | brace :: _ => .error (.unclosedBlock brace)
  | c :: rest =>
    if Text.isSpace c.char ∨ c.char = ';' then scan size braces rest
    else if hc : c.char = '}' then
      match braces with
      | [] => .error (.unexpectedClose c.offset)
      | _ :: outer =>
        match scan size outer rest with
        | .error e => .error e
        | .ok events => .ok (.closes c.stop :: events)
    else
      match h : ofStart size c rest with
      | .error e => .error e
      | .ok (event, after) =>
        have := length_ofStart hc h
        match scan size (event.openAfter braces) after with
        | .error e => .error e
        | .ok events => .ok (event :: events)
termination_by cs => cs.length

/-- A list of nodes under construction from its end: the nodes of the current block that follow,
and for each block around it its end and the nodes that follow it. -/
structure Pending where
  nodes : List Node
  outer : List (Nat × List Node)

/-- Puts an event in front. Between balanced events every block that opens has its end on the
stack. -/
def Pending.push : Event → Pending → Pending
  | .leaf node, p => { p with nodes := node :: p.nodes }
  | .closes stop, p => ⟨[], (stop, p.nodes) :: p.outer⟩
  | .opens start _ head, ⟨body, (stop, after) :: outer⟩ =>
    ⟨head.node ⟨start, stop⟩ body :: after, outer⟩
  | .opens _ _ _, ⟨body, []⟩ => ⟨body, []⟩

/-- The tree that the events describe. -/
def nodes (events : List Event) : List Node :=
  (events.foldr Pending.push ⟨[], []⟩).nodes

end Event

/-- Reads a stylesheet. -/
def Sheet.parse (source : String) : Except ParseError Sheet :=
  (Event.scan source.utf8ByteSize [] (Located.ofString source)).map fun events =>
    ⟨source, Event.nodes events⟩

end SheetPolicy
