import Mathlib
import SheetPolicy.Proofs.Cursor.Clip

/-!
A stylesheet by byte offsets, block by block. The offset is handed from the nodes of a block to a
statement, from there to the nodes of its own block, and back behind the brace that closes it; each
time it has to be further on and within the source. The reading ends as that over characters does,
in the same nodes or with the same error (`readSheet_eq`). What is read where a node starts has the
text of the node, with a place in the source for each of its bytes (`exists_piece`).
-/

namespace SheetPolicy.Cursor

/-- The declaration between two offsets, and the copy of its value. -/
def declaration (source : String) (start stop : Nat) :
    Checked ParseError (Declaration × Clip) := do
  let range ← cut source start stop
  let text := trimEnd range
  match find? ":" text with
  | none => refuse (.unknownWord start text)
  | some colon =>
    let prop ← clean source start (start + colon)
    let value ← clean source (start + colon + 1) (start + text.utf8ByteSize)
    let (value, important) ← value.splitImportant
    .ok (⟨⟨start, start + text.utf8ByteSize⟩, prop.text, value.excerpt, important⟩, value)

/-- What a statement is: a node without a block, and the offset from which the source goes on behind
it, or what stands before a block, and the offsets of its start and of the brace. With it comes the
copy of the selector, the parameters or the value. -/
inductive Piece where
  | leaf (node : Node) (clip? : Option Clip) (next : Nat)
  | block (start brace : Nat) (head : Head) (clip : Clip)

def Piece.clip? : Piece → Option Clip
  | leaf _ clip? _ => clip?
  | block _ _ _ clip => some clip

def comment (source : String) (start : Nat) : Checked ParseError Piece := do
  let stop ← skipComment source start
  let inner ← subtract stop 2
  let text ← cut source (start + 2) inner
  .ok (.leaf (.comment ⟨⟨start, stop⟩, Text.trim text⟩) none stop)

def atRule (source : String) (start : Nat) : Checked ParseError Piece := do
  let nameStop := skipWhile source Event.isNameChar (start + 1)
  let name ← cut source (start + 1) nameStop
  let (stop, terminator) ← scanPrelude source 0 nameStop
  let params ← clean source nameStop stop
  if terminator = some '{' then .ok (.block start stop (.atRule name params.excerpt) params)
  else
    let next := if terminator = some ';' then stop + 1 else stop
    .ok (.leaf (.atStatement ⟨⟨start, next⟩, name, params.excerpt⟩) (some params) next)

/-- A style rule or a declaration. -/
def statement (source : String) (start : Nat) : Checked ParseError Piece := do
  let (stop, terminator) ← scanPrelude source 0 start
  if terminator = some '{' then
    let selector ← clean source start stop
    .ok (.block start stop (.rule selector.excerpt) selector)
  else
    let (decl, value) ← declaration source start stop
    .ok (.leaf (.declaration decl) (some value) (if terminator = some ';' then stop + 1 else stop))

/-- What starts at `i` with the byte `b`. -/
def piece (source : String) (i : Nat) (b : Char) : Checked ParseError Piece :=
  if b = '/' ∧ byte? source (i + 1) = some '*' then comment source i
  else if b = '@' then atRule source i
  else statement source i

/-- The nodes from `i` on up to the end of the source, or up to the brace that closes the block
opened at `opened`, and the offset from which the source goes on behind them. -/
def nodes (source : String) (opened : Option Nat) (i : Nat) :
    Checked ParseError (List Node × Nat) :=
  let start := skipWhile source Text.isSpace i
  match byte? source start with
  | none =>
    match opened with
    | some brace => refuse (.unclosedBlock brace)
    | none => .ok ([], start)
  | some b =>
    if b = '}' then
      match opened with
      | some _ => .ok ([], start + 1)
      | none => refuse (.unexpectedClose start)
    else if b = ';' then do
      let ⟨j, _⟩ ← onward source i (start + 1)
      nodes source opened j
    else do
      match ← piece source start b with
      | .leaf node _ next =>
        let ⟨j, _⟩ ← onward source i next
        let (more, stop) ← nodes source opened j
        .ok (node :: more, stop)
      | .block start brace head _ =>
        let ⟨j, _⟩ ← onward source i (brace + 1)
        let (body, after) ← nodes source (some brace) j
        let ⟨k, _⟩ ← onward source i after
        let (more, stop) ← nodes source opened k
        .ok (head.node ⟨start, after⟩ body :: more, stop)
termination_by source.utf8ByteSize - i

/-- Reads a stylesheet. -/
def readSheet (source : String) : Checked ParseError Sheet := do
  let (nodes, _) ← nodes source none 0
  .ok ⟨source, nodes⟩

/-! ## Declarations -/

variable {source : String}

/-- The copy shows the text, or there is neither. -/
def Shown (clip? : Option Clip) (text? : Option Excerpt) : Prop :=
  clip?.map Clip.excerpt = text? ∧ ∀ clip ∈ clip?, clip.Aligned

theorem Clip.Aligned.shown {clip : Clip} (h : clip.Aligned) :
    Shown (some clip) (some clip.excerpt) :=
  ⟨rfl, by simpa using h⟩

/-- The declaration is read, and the copy shows its value. -/
def IsDeclaration (x : Declaration × Clip) (decl : Declaration) : Prop :=
  x.1 = decl ∧ Shown (some x.2) (some decl.value)

theorem declaration_spot {taken tail : List Located}
    (h : taken ++ tail <:+ Located.ofString source) :
    Agrees IsDeclaration (declaration source (spot source (taken ++ tail)) (spot source tail))
      (Event.declaration (spot source (taken ++ tail)) (taken ++ tail) (spot source tail)) := by
  have hrising := Located.Rising.of_runs (runs_spot h)
  have htaken : ((taken ++ tail).takeWhile fun c => c.offset < spot source tail) = taken :=
    Event.takeWhile_lt_startOf hrising
  obtain ⟨body, gap, htext, hgap⟩ : ∃ body gap,
      Text.dropRightWhile (fun c : Located => Text.isBlank c.char) taken = body ∧
        taken = body ++ gap := ⟨_, _, rfl, (Excerpt.dropRightWhile_append_drop _ taken).symm⟩
  have hsuffix : body ++ (gap ++ tail) <:+ Located.ofString source := by
    rwa [← List.append_assoc, ← hgap]
  have hlast : Located.startOf (spot source tail) (taken.drop body.length) =
      spot source (gap ++ tail) := by
    rw [hgap, List.drop_left, spot, spot, Located.startOf_append]
  have hstop := spot_append hsuffix
  rw [← List.append_assoc, ← hgap, ← Located.utf8ByteSize_text] at hstop
  have hfind := find?_singleton ':' (runs_of_append hsuffix)
  rw [declaration, cut_append h, ok_bind, trimEnd_text, htext]
  simp only [Event.declaration, htaken, htext, hlast, ← hstop]
  rw [← List.append_assoc, ← hgap] at hfind
  cases hcolon : body.find? fun c => c.char = ':' with
  | none =>
    rw [hcolon, Option.map_none, Option.map_eq_none_iff] at hfind
    rw [show ":" = String.singleton ':' from rfl, hfind]
    exact .error _
  | some colon =>
    rw [hcolon, Option.map_some, Option.map_eq_some_iff] at hfind
    obtain ⟨n, hn, hoffset⟩ := hfind
    obtain ⟨hchar, before, after, rfl, -⟩ := List.find?_eq_some_iff_append.1 hcolon
    rw [decide_eq_true_eq] at hchar
    have hcs : taken ++ tail = before ++ colon :: (after ++ (gap ++ tail)) := by simp [hgap]
    have hdrop : ((taken ++ tail).dropWhile fun c => c.offset ≤ colon.offset) =
        after ++ (gap ++ tail) := by
      rw [hcs] at hrising ⊢
      exact Event.dropWhile_le_offset hrising
    rw [hcs] at h
    have hmark : colon :: (after ++ (gap ++ tail)) <:+ Located.ofString source :=
      (List.suffix_append before _).trans h
    have hafter := (List.suffix_cons colon _).trans hmark
    have hstart : colon.offset + 1 = spot source (after ++ (gap ++ tail)) := by
      rw [spot_rest hmark, stop_eq_of_ascii (by simp [hchar])]
    have hprop := clean_spot h
    rw [← hcs, spot_cons] at hprop
    rw [show ":" = String.singleton ':' from rfl, hn]
    simp only [hoffset, hstart, hdrop]
    refine hprop.bind fun prop e hprop => (clean_spot hafter).bind fun value e' hvalue => ?_
    obtain ⟨result, hresult, hexcerpt, haligned⟩ := hvalue.splitImportant ParseError
    rw [hresult]
    refine .ok ⟨?_, hexcerpt ▸ haligned.shown⟩
    rw [hexcerpt, ← hprop.excerpt_eq, Clip.text_excerpt]

/-! ## Statements -/

/-- The piece is the event, its copy shows the text of the event, and the source goes on behind it
at the same place. -/
def Piece.IsEvent (source : String) : Piece → Event × List Located → Prop
  | .leaf node clip? next, (event, after) =>
    event = .leaf node ∧ Shown clip? node.excerpt? ∧ next = spot source after
  | .block start brace head clip, (event, inner) =>
    event = .opens start brace head ∧ Shown (some clip) (some head.excerpt) ∧
      brace + 1 = spot source inner

theorem spot_terminator {t : Located} {after : List Located}
    (hterm : Prelude.isTerminator t.char = true) (h : t :: after <:+ Located.ofString source) :
    t.offset + 1 = spot source after := by
  have ht : t.char = ';' ∨ t.char = '{' ∨ t.char = '}' := by
    simpa [Prelude.isTerminator, or_assoc] using hterm
  rw [spot_rest h, stop_eq_of_ascii (by rcases ht with ht | ht | ht <;> simp [ht])]

/-- A comment ends with a mark of two bytes. -/
theorem closeComment_mark {cs body after : List Located}
    (h : Lexeme.closeComment cs = some (body, after)) :
    ∃ inner mark, body = inner ++ mark ∧ body.take (body.length - 2) = inner ∧
      Located.size mark = 2 := by
  obtain ⟨chars, hchars, -⟩ := Lexeme.closeComment_chars h
  obtain ⟨inner, mark, rfl, rfl, hmark⟩ := List.map_eq_append_iff.1 hchars
  have hlen : mark.length = 2 := by simpa using congrArg List.length hmark
  refine ⟨inner, mark, rfl, by simp [hlen], ?_⟩
  rw [← Located.utf8ByteSize_text, Located.text, hmark]
  decide

theorem comment_cons {c : Located} {rest : List Located}
    (h : c :: rest <:+ Located.ofString source)
    (hcomment : c.char = '/' ∧ rest.head?.map Located.char = some '*') :
    Agrees (Piece.IsEvent source) (comment source c.offset)
      (Event.ofComment source.utf8ByteSize c rest) := by
  have hskip := skipComment_cons h hcomment
  obtain ⟨hc, hhead⟩ := hcomment
  obtain ⟨star, tail, rfl, hstar⟩ := exists_cons_of_head? hhead
  have htail : tail <:+ Located.ofString source :=
    ((List.suffix_cons star tail).trans (List.suffix_cons c _)).trans h
  have hstart := spot_rest_rest h (by simp [hc]) (by simp [hstar])
  rw [comment, hskip, Event.ofComment, List.tail_cons, Lexeme.next.eq_def, if_neg (by simp [hc]),
    if_neg (by simp [hc])]
  simp only [hc, hstar, and_self, if_true]
  cases hclose : Lexeme.closeComment tail with
  | none => exact .error _
  | some p =>
    obtain ⟨body, after⟩ := p
    obtain ⟨inner, mark, rfl, hinner, hmark⟩ := closeComment_mark hclose
    obtain rfl := Lexeme.closeComment_append hclose
    rw [List.append_assoc] at htail hstart
    have hmarkTail := (List.suffix_append inner _).trans htail
    have hstop := spot_append hmarkTail
    have hcut := @cut_append ParseError _ _ _ htail
    rw [hstart] at hcut
    have hinnerStop : spot source after - 2 = spot source (mark ++ after) := by omega
    simp only [Except.map, faultless_ok, ok_bind]
    rw [subtract_of_le (by omega), ok_bind, hinnerStop, hcut, ok_bind, hinner]
    exact .ok ⟨rfl, ⟨rfl, by simp⟩, rfl⟩

theorem atRule_cons {c : Located} {rest : List Located}
    (h : c :: rest <:+ Located.ofString source) (hc : c.char = '@') :
    Agrees (Piece.IsEvent source) (atRule source c.offset)
      (Event.ofAtRule source.utf8ByteSize c rest) := by
  have hrest := (List.suffix_cons c rest).trans h
  have hstart : c.offset + 1 = spot source rest := by
    rw [spot_rest h, stop_eq_of_ascii (by simp [hc])]
  have hname := List.takeWhile_append_dropWhile (l := rest)
    (p := fun d : Located => Event.isNameChar d.char)
  rw [atRule, hstart, skipWhile_spot coarse_isNameChar hrest]
  simp only [Event.ofAtRule]
  generalize (rest.takeWhile fun d : Located => Event.isNameChar d.char) = name at hname
  generalize (rest.dropWhile fun d : Located => Event.isNameChar d.char) = tail at hname
  rw [← hname] at hrest
  have htail := (List.suffix_append name tail).trans hrest
  rw [← hname, cut_append hrest, ok_bind, scanPrelude_spot htail]
  cases hskip : Prelude.skip 0 tail with
  | error e => exact .error e
  | ok stop =>
    obtain ⟨taken, rfl⟩ := Prelude.skip_suffix hskip
    simp only [Except.map, faultless_ok, ok_bind]
    refine (clean_spot htail).bind fun params e hcopy => ?_
    cases stop with
    | nil => exact .ok ⟨by rw [hcopy.excerpt_eq]; rfl, hcopy.aligned.shown, rfl⟩
    | cons t after =>
      have hnext := spot_terminator (Prelude.skip_terminator hskip)
        ((List.suffix_append taken _).trans htail)
      simp only [List.head?_cons, Option.map_some, Option.some_inj]
      split
      · exact .ok ⟨by rw [hcopy.excerpt_eq]; rfl, hcopy.aligned.shown, hnext⟩
      · split
        · have hstop : t.stop = t.offset + 1 := by
            rw [hnext, spot_rest ((List.suffix_append taken _).trans htail)]
          exact .ok ⟨by rw [hcopy.excerpt_eq, hstop]; rfl, hcopy.aligned.shown, hnext⟩
        · exact .ok ⟨by rw [hcopy.excerpt_eq]; rfl, hcopy.aligned.shown, rfl⟩

theorem statement_cons {c : Located} {rest : List Located}
    (h : c :: rest <:+ Located.ofString source) :
    Agrees (Piece.IsEvent source) (statement source c.offset)
      (Event.ofStatement source.utf8ByteSize c rest) := by
  have hscan := @scanPrelude_spot _ 0 _ h
  rw [spot_cons] at hscan
  rw [statement, Event.ofStatement, hscan]
  cases hskip : Prelude.skip 0 (c :: rest) with
  | error e => exact .error e
  | ok stop =>
    obtain ⟨taken, htaken⟩ := Prelude.skip_suffix hskip
    rw [← htaken] at h ⊢
    have hstart : c.offset = spot source (taken ++ stop) := by rw [htaken, spot_cons]
    simp only [Except.map, faultless_ok, ok_bind, hstart]
    have hdecl := declaration_spot h
    cases stop with
    | nil =>
      refine hdecl.bind fun x decl hx => .ok ⟨by rw [hx.1], hx.1 ▸ hx.2, rfl⟩
    | cons t after =>
      have hnext := spot_terminator (Prelude.skip_terminator hskip)
        ((List.suffix_append taken _).trans h)
      simp only [List.head?_cons, Option.map_some, Option.some_inj]
      split
      · exact (clean_spot h).bind fun selector e hcopy =>
          .ok ⟨by rw [hcopy.excerpt_eq]; rfl, hcopy.aligned.shown, hnext⟩
      · refine hdecl.bind fun x decl hx => .ok ⟨by rw [hx.1], hx.1 ▸ hx.2, ?_⟩
        split
        · exact hnext
        · rfl

theorem piece_cons {c : Located} {rest : List Located} {b : Char}
    (h : c :: rest <:+ Located.ofString source) (hb : byte? source c.offset = some b) :
    Agrees (Piece.IsEvent source) (piece source c.offset b)
      (Event.ofStart source.utf8ByteSize c rest) := by
  obtain ⟨b', hb', halike⟩ := byte?_cons h
  obtain rfl : b = b' := by simpa [hb] using hb'
  have hcomment : b = '/' ∧ byte? source (c.offset + 1) = some '*' ↔
      c.char = '/' ∧ rest.head?.map Located.char = some '*' := by
    rw [halike.eq_iff (by decide), and_congr_right_iff]
    exact fun hc => byte?_second_eq_iff h (by simp [hc]) (by decide)
  rw [piece, Event.ofStart]
  by_cases hat : c.char = '@'
  · rw [if_neg (by simp [hcomment, hat]), if_pos ((halike.eq_iff (by decide)).2 hat), if_pos hat]
    exact atRule_cons h hat
  · rw [if_neg hat]
    split
    · next hmark =>
      rw [if_pos (hcomment.1 hmark)]
      exact comment_cons h (hcomment.1 hmark)
    · next hmark =>
      rw [if_neg ((halike.eq_iff (by decide)).not.2 hat), if_neg (hcomment.not.1 hmark)]
      exact statement_cons h

/-! ## Blocks -/

/-- How the nodes from `cs` on are read: to the end of the source, up to the brace that closes the
block, or with the error that a scan meets from there on, whatever further blocks are open. -/
inductive ReadsNodes (source : String) (cs : List Located) :
    Option Nat → Checked ParseError (List Node × Nat) → Prop
  | whole {nodes : List Node} :
      Event.Reads source.utf8ByteSize cs nodes [] →
      ReadsNodes source cs none (.ok (nodes, source.utf8ByteSize))
  | block {brace : Nat} {nodes : List Node} {close : Located} {outer : List Located} :
      Event.Reads source.utf8ByteSize cs nodes (close :: outer) → close.char = '}' →
      close :: outer <:+ cs → ReadsNodes source cs (some brace) (.ok (nodes, spot source outer))
  | refused {opened : Option Nat} {e : ParseError} :
      (∀ braces, (opened = none → braces = []) →
        Event.scan source.utf8ByteSize (opened.toList ++ braces) cs = .error e) →
      ReadsNodes source cs opened (refuse e)

namespace ReadsNodes

variable {c : Located} {rest after : List Located} {opened : Option Nat}
  {r : Checked ParseError (List Node × Nat)}

theorem filler (hfill : Event.IsFiller c) (h : ReadsNodes source rest opened r) :
    ReadsNodes source (c :: rest) opened r := by
  cases h with
  | whole hreads => exact .whole (.filler hfill hreads)
  | block hreads hclose hsuffix =>
    exact .block (.filler hfill hreads) hclose (hsuffix.trans (List.suffix_cons c rest))
  | refused hscan =>
    refine .refused fun braces hbraces => ?_
    rw [Event.scan.eq_def]
    simp only [if_pos (show Text.isSpace c.char = true ∨ c.char = ';' from hfill),
      hscan braces hbraces]

theorem spaces {cs : List Located}
    (h : ReadsNodes source (cs.dropWhile fun c => Text.isSpace c.char) opened r) :
    ReadsNodes source cs opened r := by
  induction cs with
  | nil => exact h
  | cons c rest ih =>
    rw [List.dropWhile_cons] at h
    split at h
    · next hc => exact (ih h).filler (.inl hc)
    · exact h

theorem leaf {node : Node} (hfill : ¬Event.IsFiller c) (hclose : c.char ≠ '}')
    (hstart : Event.ofStart source.utf8ByteSize c rest = .ok (.leaf node, after))
    (hafter : after <:+ c :: rest) (h : ReadsNodes source after opened r) :
    ReadsNodes source (c :: rest) opened (r >>= fun p => .ok (node :: p.1, p.2)) := by
  cases h with
  | whole hreads => exact .whole (.leaf hfill hclose hstart hreads)
  | block hreads hbrace hsuffix =>
    exact .block (.leaf hfill hclose hstart hreads) hbrace (hsuffix.trans hafter)
  | refused hscan =>
    refine .refused fun braces hbraces => ?_
    rw [Event.scan_event hfill hclose hstart, Event.openAfter, hscan braces hbraces]
    rfl

/-- A block is read, and then what follows it. -/
theorem nest {start brace : Nat} {head : Head} {inner outer : List Located} {body : List Node}
    {close : Located} (hfill : ¬Event.IsFiller c) (hclose : c.char ≠ '}')
    (hstart : Event.ofStart source.utf8ByteSize c rest = .ok (.opens start brace head, inner))
    (hbody : Event.Reads source.utf8ByteSize inner body (close :: outer))
    (hbrace : close.char = '}')
    (houter : outer <:+ c :: rest) (h : ReadsNodes source outer opened r) :
    ReadsNodes source (c :: rest) opened
      (r >>= fun p => .ok (head.node ⟨start, close.stop⟩ body :: p.1, p.2)) := by
  cases h with
  | whole hreads => exact .whole (.block hfill hclose hstart hbody hbrace hreads)
  | block hreads hbrace' hsuffix =>
    exact .block (.block hfill hclose hstart hbody hbrace hreads) hbrace' (hsuffix.trans houter)
  | refused hscan =>
    refine .refused fun braces hbraces => ?_
    obtain ⟨events, hevents, -⟩ := hbody.scan_eq
    rw [Event.scan_event hfill hclose hstart, Event.openAfter, hevents, Event.scan_close hbrace,
      hscan braces hbraces]
    rfl

/-- An error in a block is one of what it stands in. -/
theorem nest_refused {start brace : Nat} {head : Head} {inner : List Located} {e : ParseError}
    (hfill : ¬Event.IsFiller c) (hclose : c.char ≠ '}')
    (hstart : Event.ofStart source.utf8ByteSize c rest = .ok (.opens start brace head, inner))
    (h : ∀ braces, Event.scan source.utf8ByteSize (brace :: braces) inner = .error e) :
    ReadsNodes source (c :: rest) opened (refuse e) := by
  refine .refused fun braces _ => ?_
  rw [Event.scan_event hfill hclose hstart, Event.openAfter, h]
  rfl

end ReadsNodes

section

variable {opened : Option Nat} {i start : Nat} {b : Char}
  (hstart : skipWhile source Text.isSpace i = start) (hb : byte? source start = some b)
  (hclose : b ≠ '}') (hsemi : b ≠ ';')

include hstart hb hclose hsemi

theorem nodes_of_refusal {e : ParseError} (hpiece : piece source start b = refuse e) :
    nodes source opened i = refuse e := by
  rw [nodes.eq_def]
  simp only [hstart, hb, if_neg hclose, if_neg hsemi, hpiece]
  rfl

theorem nodes_of_leaf {node : Node} {clip? : Option Clip} {next : Nat}
    (hpiece : piece source start b = .ok (.leaf node clip? next))
    (hnext : i < next ∧ next ≤ source.utf8ByteSize) :
    nodes source opened i = nodes source opened next >>= fun p => .ok (node :: p.1, p.2) := by
  rw [nodes.eq_def source opened i]
  simp only [hstart, hb, if_neg hclose, if_neg hsemi, hpiece, ok_bind, onward_of_lt hnext]

theorem nodes_of_block {begin brace : Nat} {head : Head} {clip : Clip}
    (hpiece : piece source start b = .ok (.block begin brace head clip))
    (hnext : i < brace + 1 ∧ brace + 1 ≤ source.utf8ByteSize) :
    nodes source opened i =
      nodes source (some brace) (brace + 1) >>= fun p => onward source i p.2 >>= fun k =>
        nodes source opened k >>= fun q => .ok (head.node ⟨begin, p.2⟩ p.1 :: q.1, q.2) := by
  rw [nodes.eq_def source opened i]
  simp only [hstart, hb, if_neg hclose, if_neg hsemi, hpiece, ok_bind, onward_of_lt hnext]

end

/-- What an event leaves stands behind its first character. -/
theorem suffix_of_ofStart {c : Located} {rest after : List Located} {event : Event}
    (h : c :: rest <:+ Located.ofString source) (hclose : c.char ≠ '}')
    (hstart : Event.ofStart source.utf8ByteSize c rest = .ok (event, after)) : after <:+ rest := by
  have hrising := Located.Rising.of_runs (runs_spot h)
  have hsuffix := ((Event.ofStart_eq_ok_iff hrising).1 hstart).suffix
  exact List.suffix_of_suffix_length_le hsuffix (List.suffix_cons c rest)
    (Event.length_ofStart hclose hstart)

section

variable {cs rest : List Located} {c : Located} (h : cs <:+ Located.ofString source)
  (hskip : cs.dropWhile (fun c => Text.isSpace c.char) = c :: rest)

include hskip

theorem suffix_of_skip : c :: rest <:+ cs :=
  hskip ▸ List.dropWhile_suffix _

include h

theorem skipWhile_of_skip : skipWhile source Text.isSpace (spot source cs) = c.offset := by
  rw [skipWhile_spot coarse_isSpace h, hskip, spot_cons]

/-- A statement and the nodes that follow, from what holds of the nodes behind its first
character. -/
theorem nodes_statement (opened : Option Nat) (hclose : c.char ≠ '}') (hsemi : c.char ≠ ';')
    (ih : ∀ after, after <:+ rest → ∀ opened,
      ReadsNodes source after opened (nodes source opened (spot source after))) :
    ReadsNodes source (c :: rest) opened (nodes source opened (spot source cs)) := by
  have hcs := (suffix_of_skip hskip).trans h
  have hstart := skipWhile_of_skip h hskip
  have hspace : ¬Text.isSpace c.char := by
    simpa [hskip] using List.head?_dropWhile_not (fun c : Located => Text.isSpace c.char) cs
  have hfill : ¬Event.IsFiller c := not_or.2 ⟨hspace, hsemi⟩
  obtain ⟨b, hb, halike⟩ := byte?_cons hcs
  have hb1 : b ≠ '}' := (halike.eq_iff (by decide)).not.2 hclose
  have hb2 : b ≠ ';' := (halike.eq_iff (by decide)).not.2 hsemi
  have hpiece := piece_cons hcs hb
  generalize hp : piece source c.offset b = p at hpiece
  generalize he : Event.ofStart source.utf8ByteSize c rest = e at hpiece
  cases hpiece with
  | error e =>
    rw [nodes_of_refusal hstart hb hb1 hb2 hp]
    exact .refused fun braces _ => Event.scan_error hfill hclose he
  | @ok p e hevent =>
    obtain ⟨event, after⟩ := e
    have hafter := suffix_of_ofStart hcs hclose he
    have hnext := lt_spot_of_suffix h (suffix_of_skip hskip) hafter
    cases p with
    | leaf node clip? next =>
      obtain ⟨rfl, _, rfl⟩ := hevent
      rw [nodes_of_leaf hstart hb hb1 hb2 hp hnext]
      exact (ih after hafter opened).leaf hfill hclose he (hafter.trans (List.suffix_cons c rest))
    | block start brace head clip =>
      obtain ⟨rfl, _, hbrace⟩ := hevent
      rw [nodes_of_block hstart hb hb1 hb2 hp (hbrace ▸ hnext), hbrace]
      have hbody := ih after hafter (some brace)
      generalize nodes source (some brace) (spot source after) = body at hbody
      -- a block that is read has ended at its brace, so its nodes stand before a closing one
      cases hbody with
      | refused hscan => exact .nest_refused hfill hclose he fun braces => hscan braces (by simp)
      | @block _ body close outer hreads hchar hsuffix =>
        have hinner := hsuffix.trans hafter
        have houter := (List.suffix_cons close outer).trans hinner
        have hnest := (ih outer houter opened).nest hfill hclose he hreads hchar
          (houter.trans (List.suffix_cons c rest))
        rw [← spot_rest ((hinner.trans (List.suffix_cons c rest)).trans hcs)] at hnest
        rwa [ok_bind, onward_of_lt (lt_spot_of_suffix h (suffix_of_skip hskip) houter), ok_bind]

theorem nodes_cons (opened : Option Nat)
    (ih : ∀ after, after <:+ rest → ∀ opened,
      ReadsNodes source after opened (nodes source opened (spot source after))) :
    ReadsNodes source (c :: rest) opened (nodes source opened (spot source cs)) := by
  have hcs := (suffix_of_skip hskip).trans h
  obtain ⟨b, hb, halike⟩ := byte?_cons hcs
  by_cases hclose : c.char = '}'
  · have hnext : c.offset + 1 = spot source rest := spot_terminator (by simp [hclose]; decide) hcs
    rw [nodes.eq_def]
    simp only [skipWhile_of_skip h hskip, hb, if_pos ((halike.eq_iff (by decide)).2 hclose), hnext]
    cases opened with
    | none =>
      refine .refused fun braces hbraces => ?_
      rw [hbraces rfl, Event.scan.eq_def]
      simp [hclose, Text.isSpace]
    | some brace => exact .block (.close hclose) hclose List.suffix_rfl
  by_cases hsemi : c.char = ';'
  · have hnext : c.offset + 1 = spot source rest := spot_terminator (by simp [hsemi]; decide) hcs
    rw [nodes.eq_def]
    simp only [skipWhile_of_skip h hskip, hb, if_neg ((halike.eq_iff (by decide)).not.2 hclose),
      if_pos ((halike.eq_iff (by decide)).2 hsemi), hnext,
      onward_of_lt (lt_spot_of_suffix h (suffix_of_skip hskip) List.suffix_rfl), ok_bind]
    exact (ih rest List.suffix_rfl opened).filler (.inr hsemi)
  exact nodes_statement h hskip opened hclose hsemi ih

end

theorem nodes_spot {cs : List Located} (h : cs <:+ Located.ofString source) (opened : Option Nat) :
    ReadsNodes source cs opened (nodes source opened (spot source cs)) := by
  induction hlen : cs.length using Nat.strong_induction_on generalizing cs opened with
  | _ n ih =>
  apply ReadsNodes.spaces
  cases hskip : cs.dropWhile fun c => Text.isSpace c.char with
  | nil =>
    have hstart := skipWhile_spot coarse_isSpace h
    rw [hskip] at hstart
    rw [nodes.eq_def]
    simp only [hstart, spot_nil, byte?_size]
    cases opened with
    | none => exact .whole .finish
    | some brace => exact .refused fun braces _ => by simp [Event.scan]
  | cons c rest =>
    have hsuffix := suffix_of_skip hskip
    have hrest := (List.suffix_cons c rest).trans hsuffix
    have hlt : rest.length < n := by simpa [hlen] using hsuffix.length_le
    refine nodes_cons h hskip opened fun after hafter opened => ?_
    exact ih _ (hafter.length_le.trans_lt hlt) ((hafter.trans hrest).trans h) opened rfl

/-- No fault: the nodes or the error are those of the reading over characters. -/
theorem readSheet_eq (source : String) : readSheet source = faultless (Sheet.parse source) := by
  have h := @nodes_spot source _ List.suffix_rfl none
  rw [spot_ofString] at h
  rw [readSheet]
  generalize nodes source none 0 = r at h
  cases h with
  | whole hreads => simp [Event.parse_of_reads hreads]
  | refused hscan =>
    have hnone : Event.scan source.utf8ByteSize [] (Located.ofString source) = .error _ :=
      hscan [] fun _ => rfl
    rw [Sheet.parse, hnone]
    rfl

/-- Where a node starts, a piece is read that has the text of the node. -/
theorem exists_piece {sheet : Sheet} (h : Sheet.parse source = .ok sheet) {node : Node}
    (hnode : node.Occurs sheet.nodes) :
    ∃ b p, byte? source node.span.start = some b ∧ piece source node.span.start b = .ok p ∧
      Shown p.clip? node.excerpt? := by
  obtain ⟨ds, e, next, hds, hstart, htakes, hmakes⟩ :=
    (Event.parse_eq_ok_iff.1 h).2.exists_takes hnode
  rw [← htakes.start_eq hmakes]
  cases ds with
  | nil => exact hstart.elim
  | cons c rest =>
    obtain ⟨b, hb, _⟩ := byte?_cons hds
    have hpiece := piece_cons hds hb
    rw [(Event.ofStart_eq_ok_iff (Located.Rising.of_runs (runs_spot hds))).2 htakes] at hpiece
    generalize hp : piece source c.offset b = p at hpiece
    cases hpiece with
    | @ok p _ hevent =>
      refine ⟨b, p, hb, hp, ?_⟩
      cases p with
      | leaf node clip? next =>
        obtain ⟨rfl, hshown, _⟩ := hevent
        obtain rfl := hmakes
        exact hshown
      | block start brace head clip =>
        obtain ⟨rfl, hshown, _⟩ := hevent
        obtain ⟨_, _, rfl⟩ := hmakes
        rwa [Head.excerpt?_node]

end SheetPolicy.Cursor

namespace SheetPolicy

/-- The offsets of every text are exact: for every node of a sheet, at any depth, its selector,
parameters or value are the bytes of the source at the offsets given, in order and within the
node. They are also those that the gaps give which a reading by byte offsets notes down from the
start of the node on, for every byte, be it the first of a character or not. -/
theorem offsets_exact {source : String} {sheet : Sheet} (h : Sheet.parse source = .ok sheet)
    {node : Node} (hnode : node.Occurs sheet.nodes) {text : Excerpt}
    (htext : node.excerpt? = some text) :
    text.Exact source node.span ∧
      ∃ b piece clip, Cursor.byte? source node.span.start = some b ∧
        Cursor.piece source node.span.start b = .ok piece ∧ piece.clip? = some clip ∧
        clip.text = text.text ∧
        ∀ i ≤ text.text.utf8ByteSize, clip.sourceOffset i = text.sourceOffset i := by
  refine ⟨(((parse_placed h).2 node hnode).excerpt text htext).exact, ?_⟩
  obtain ⟨b, piece, hb, hpiece, hshown, haligned⟩ := Cursor.exists_piece h hnode
  rw [htext] at hshown
  obtain ⟨clip, hclip, rfl⟩ := Option.map_eq_some_iff.1 hshown
  refine ⟨b, piece, clip, hb, hpiece, hclip, clip.text_excerpt.symm, fun i hi => ?_⟩
  rw [clip.text_excerpt] at hi
  exact (haligned clip hclip).sourceOffset_eq hi

/-- The value is `"/*"é`. A gap of four bytes stands before its last character, which has two. -/
theorem offsets_exact_sample : ∃ sheet piece clip, Sheet.parse sampleSource = .ok sheet ∧
    (Node.declaration sampleDeclaration).Occurs sheet.nodes ∧
    sampleDeclaration.value.Exact sampleSource ⟨12, 35⟩ ∧
    Cursor.piece sampleSource 12 'c' = .ok piece ∧ piece.clip? = some clip ∧
    (List.range 7).map clip.sourceOffset = [15, 16, 17, 18, 23, 24, 25] := by
  obtain ⟨sheet, h, hdecls⟩ := parse_sampleSource
  have hmem : sampleDeclaration ∈ sheet.declarations.map Prod.fst := by simp [hdecls]
  obtain ⟨node, hoccurs, hitem⟩ := ((visitsOnce_declarations h).complete _).1 hmem
  obtain rfl : node = .declaration sampleDeclaration := by
    cases node <;> simp_all [Node.item]
  obtain ⟨hexact, b, piece, clip, hb, hpiece, hclip, _, hoffset⟩ := offsets_exact h hoccurs rfl
  obtain rfl : 'c' = b := Option.some.inj ((by decide +kernel : Cursor.byte? _ _ = _).symm.trans hb)
  refine ⟨sheet, piece, clip, h, hoccurs, hexact, hpiece, hclip, ?_⟩
  have hrange : (List.range 7).map clip.sourceOffset =
      (List.range 7).map sampleDeclaration.value.sourceOffset := by
    refine List.map_congr_left fun i hi => hoffset i ?_
    have hsize : sampleDeclaration.value.text.utf8ByteSize = 6 := by decide +kernel
    have hlt := List.mem_range.1 hi
    omega
  rw [hrange]
  decide +kernel

end SheetPolicy
