import Mathlib
import SheetPolicy.Proofs.Layout
import SheetPolicy.Proofs.Locality
import SheetPolicy.Proofs.Move

/-!
Sheets written one after the other. The second sheet does not reach back into the first one: if the
last statement of the first sheet is ended, the two together have the nodes of the first sheet and then
those of the second, moved on by the length of the first (`parse_append`).

A statement that is not ended goes on with whatever follows, so the condition is needed. It is a
condition on the last node only, since every other statement has something behind it that ended it.
-/

namespace SheetPolicy

/-- The last node of a sheet is ended: a declaration has a semicolon behind it, and so have the
parameters of an at-rule without a block. A block and a comment end by themselves. -/
def Node.isEnded (source : String) : Node → Bool
  | .declaration decl =>
    (Located.ofString source).any fun c => c.char = ';' && decl.span.stop ≤ c.offset
  | .atStatement head =>
    (Located.ofString source).any fun c =>
      c.char = ';' && head.params.stop ≤ c.offset && head.span.stop ≤ c.stop
  | .rule _ _ | .atRule _ _ | .comment _ => true

/-! ## More text behind -/

/-- Text that has more behind it stands in for the text. -/
theorem Lexeme.standsIn_append {tail : List Located} (hne : tail ≠ []) (more : List Located) :
    StandsIn tail (tail ++ more) where
  head := Located.headChar_append_of_ne_nil hne more
  string quote hquote xs _ hclose := by
    have hescape : quote ≠ '\\' := by rcases hquote with rfl | rfl <;> decide
    obtain ⟨⟨body, after⟩, hclose⟩ := Option.isSome_iff_exists.1 hclose
    rw [← List.append_assoc, ← closeString_append hclose, List.append_assoc,
      closeString_local hescape hclose]
    rfl
  comment xs hclose := by
    obtain ⟨⟨body, after⟩, hclose⟩ := Option.isSome_iff_exists.1 hclose
    rw [← List.append_assoc, ← closeComment_append hclose, List.append_assoc,
      closeComment_local hclose]
    rfl

/-- The last character of a text is kept, unless it ends a comment. -/
theorem Strips.mem_of_getLast? {cs kept : List Located} {c : Located} (h : Strips cs kept)
    (hlast : cs.getLast? = some c) (hc : c.char ≠ '/') : c ∈ kept := by
  induction h with
  | nil => simp at hlast
  | @keep cs kept d _ ih =>
    rw [List.getLast?_cons, Option.some_inj] at hlast
    cases hcs : cs.getLast? with
    | none => simp [hcs] at hlast; simp [hlast]
    | some e =>
      obtain rfl : e = c := by simpa [hcs] using hlast
      exact List.mem_cons_of_mem _ (ih hcs)
  | @drop comment cs kept hcomment _ ih =>
    rw [List.getLast?_append] at hlast
    cases hcs : cs.getLast? with
    | none =>
      obtain ⟨body, hbody, _⟩ := hcomment
      have hend : (comment.map Located.char).getLast? = some c.char := by
        rw [List.getLast?_map]
        simp_all
      exact absurd (by simpa [hbody, List.getLast?_cons] using hend.symm) hc
    | some e =>
      obtain rfl : e = c := by simpa [hcs] using hlast
      exact ih hcs

/-- A character that ends where the text ends is the last one. -/
theorem Located.Runs.getLast?_eq {start stop : Nat} {cs : List Located} (h : Located.Runs start cs stop)
    {c : Located} (hc : c ∈ cs) (hstop : stop ≤ c.stop) : cs.getLast? = some c := by
  obtain ⟨front, back, rfl⟩ := List.append_of_mem hc
  cases back with
  | nil => simp
  | cons d back =>
    obtain ⟨_, _, _, hrest⟩ := h.of_append
    have := d.offset_lt_stop
    have := hrest.le
    omega

/-- An excerpt up to the end of a text has its last character, unless that is blank or ends a
comment. -/
theorem Excerpt.mem_cut_of_getLast? {start stop : Nat} {cs : List Located} {e : Excerpt} {c : Located}
    (hruns : Located.Runs start cs stop) (h : Excerpt.cut cs stop = .ok e)
    (hlast : cs.getLast? = some c) (hc : c.char ≠ '/') (hblank : Text.isBlank c.char = false) :
    c ∈ e.chars := by
  rw [Excerpt.cut] at h
  cases hkeep : Excerpt.keep stop cs with
  | error err => simp [hkeep, Except.map] at h
  | ok kept =>
    obtain rfl : Excerpt.trim kept stop = e := by simpa [hkeep, Except.map] using h
    obtain ⟨⟨front, back, rfl, hstrips, hback⟩, _⟩ := Excerpt.keep_keeps hruns hkeep
    obtain rfl : back = [] := by
      refine List.eq_nil_iff_forall_not_mem.2 fun d hd => ?_
      have := (hruns.offset_mem (List.mem_append_right _ hd)).2
      have := hback d hd
      have := d.offset_lt_stop
      omega
    exact Excerpt.mem_trim (hstrips.mem_of_getLast? (by simpa using hlast) hc) hblank

namespace Event

variable {source : String} {before taken more : List Located} {size : Nat}

/-- A declaration that goes on to the end of the source has no semicolon behind it. -/
theorem not_isEnded_declaration {decl : Declaration} {prior after gap : List Located}
    {colon : Located} {prop value : Excerpt}
    (hsource : Located.ofString source = before ++ taken)
    (hdivides : Divides source.utf8ByteSize taken [] prior colon after gap prop value)
    (hstop : decl.span.stop = Located.startOf source.utf8ByteSize gap) :
    (Node.declaration decl).isEnded source = false := by
  have hrising := Located.Rising.of_runs (Located.runs_ofString source)
  have hsplit : before ++ taken = (before ++ (prior ++ colon :: after)) ++ gap := by
    simp [hdivides.taken_eq]
  rw [Node.isEnded, List.any_eq_false]
  intro c hc hsemi
  obtain ⟨hchar, hoffset⟩ := by simpa using hsemi
  rw [hsource, hsplit] at hrising hc
  rcases List.mem_append.1 hc with hc | hc
  · have := hrising.lt_startOf hc
    omega
  · have := hdivides.gap_blank c hc
    rw [hchar] at this
    exact absurd this (by decide)

/-- An at-rule that goes on to the end of the source has no semicolon behind its parameters. -/
theorem not_isEnded_atStatement {params : Excerpt} {c : Located} {name : List Located}
    (hsource : Located.ofString source = before ++ c :: (name ++ taken)) (hc : c.char = '@')
    (hname : ∀ d ∈ name, isNameChar d.char = true)
    (hparams : Excerpt.cut taken source.utf8ByteSize = .ok params) (start : Nat) (label : String) :
    (Node.atStatement ⟨⟨start, source.utf8ByteSize⟩, label, params⟩).isEnded source = false := by
  have hruns := Located.runs_ofString source
  rw [Node.isEnded, List.any_eq_false]
  intro d hd hsemi
  obtain ⟨⟨hchar, hoffset⟩, hend⟩ := by simpa using hsemi
  -- Such a semicolon is the last character of the source, and so the last one of the parameters.
  have hlast := hruns.getLast?_eq hd hend
  have htaken : taken.getLast? = some d := by
    rw [hsource, ← List.cons_append, ← List.append_assoc, List.getLast?_append] at hlast
    cases htaken : taken.getLast? with
    | some e => simpa [htaken] using hlast
    | none =>
      rw [htaken, Option.none_or, List.getLast?_append_of_ne_nil _ (List.cons_ne_nil c name)] at hlast
      rcases List.mem_cons.1 (List.mem_of_getLast? hlast) with rfl | hmem
      · simp [hc] at hchar
      · have := hname d hmem
        rw [hchar] at this
        exact absurd this (by decide)
  obtain ⟨lead, hlead⟩ : taken <:+ Located.ofString source := ⟨before ++ c :: name, by simp [hsource]⟩
  have htakenRuns := (hlead ▸ hruns).of_append.2
  have hfrom := Excerpt.cut_isFrom ⟨lead, hlead⟩ (.inl rfl)
    (htakenRuns.startOf_eq ▸ htakenRuns.le) hparams
  have hmem := Excerpt.mem_cut_of_getLast? htakenRuns hparams htaken (by simp [hchar])
    (by rw [hchar]; decide)
  have := hfrom.le_stop d hmem
  have := d.offset_lt_stop
  omega

/-! ## Statements and blocks -/

/-- The last statement of a source, if it is ended, is read in the same way when more follows. -/
theorem Takes.append_ended {node : Node} (h : Takes source.utf8ByteSize taken (.leaf node) [])
    (hsource : Located.ofString source = before ++ taken) (hended : node.isEnded source = true)
    (hmore : Located.startOf size more = source.utf8ByteSize)
    (hrising : Located.Rising size (taken ++ more)) : Takes size (taken ++ more) (.leaf node) more := by
  have hrising₀ : Located.Rising source.utf8ByteSize taken :=
    (Located.Rising.of_runs (Located.runs_ofString source)).suffix ⟨before, hsource.symm⟩
  generalize he : Event.leaf node = e at h ⊢
  generalize hnext : ([] : List Located) = next at h
  cases h with
  | @comment c star body _ hc hstar hclose =>
    subst hnext
    have htakes := @Takes.comment size c star body more hc hstar (Lexeme.closeComment_local hclose more)
    rw [hmore] at htakes
    simpa using htakes
  | @atRule c name text stop _ params _ hc hname hhead hstop hparams hend =>
    subst hnext he
    cases stop with
    | nil =>
      obtain rfl := by simpa [atRuleEnd] using hend
      rw [List.append_nil] at hparams hsource
      rw [not_isEnded_atStatement hsource hc hname hparams] at hended
      simp at hended
    | cons t after =>
      rw [atRuleEnd] at hend
      split at hend
      · simp at hend
      · split at hend
        · next hopen hsemi =>
          obtain ⟨heq, rfl⟩ := by simpa using hend
          have hsplit : c :: (name ++ (text ++ [t])) ++ more = c :: (name ++ (text ++ t :: more)) := by
            simp
          rw [hsplit] at hrising ⊢
          exact .atRule_replace hc hname hhead hstop hparams
            (Lexeme.standsIn_append (List.cons_ne_nil t []) more) rfl hrising₀ hrising
            (by simp [atRuleEnd, hsemi, heq])
        · simp at hend
  | rule => simp at he
  | @declaration text stop prior after gap colon prop value hstarts hopen hstop hdivides =>
    cases stop with
    | nil =>
      obtain rfl := by simpa using he
      rw [List.append_nil] at hsource
      rw [not_isEnded_declaration hsource hdivides (by simp)] at hended
      simp at hended
    | cons t after =>
      by_cases hsemi : t.char = ';'
      · obtain rfl : after = [] := by simpa [afterSemicolon, hsemi] using hnext.symm
        rw [List.append_assoc] at hrising
        have htakes := Takes.declaration_replace hstarts hopen hstop hdivides
          (Lexeme.standsIn_append (List.cons_ne_nil t []) more) rfl hrising₀ hrising
        simpa [afterSemicolon, hsemi] using htakes
      · simp [afterSemicolon, hsemi] at hnext

theorem Builds.nodes_nil {nodes : List Node} {after : List Located} (h : Builds size [] nodes after) :
    nodes = [] := by
  generalize hcs : ([] : List Located) = cs at h
  cases h with
  | finish => rfl
  | close => simp at hcs
  | filler => simp at hcs
  | leaf hstart | block hstart =>
    subst hcs
    exact hstart.elim

/-- The nodes of a source go before the nodes of what follows it. -/
theorem Builds.append {cs : List Located} {nodes nodes' : List Node}
    (h : Builds source.utf8ByteSize cs nodes []) (hsource : Located.ofString source = before ++ cs)
    (hended : ∀ node ∈ nodes.getLast?, node.isEnded source = true)
    (hmore : Located.startOf size more = source.utf8ByteSize)
    (hrising : Located.Rising size (cs ++ more)) (hnodes : Builds size more nodes' []) :
    Builds size (cs ++ more) (nodes ++ nodes') [] := by
  have hrising₀ : Located.Rising source.utf8ByteSize cs :=
    (Located.Rising.of_runs (Located.runs_ofString source)).suffix ⟨before, hsource.symm⟩
  have hstart : ∀ {xs : List Located}, xs ≠ [] →
      Located.startOf size (xs ++ more) = Located.startOf source.utf8ByteSize xs := by
    rintro (_ | ⟨x, xs⟩) hne
    · exact absurd rfl hne
    · rfl
  have hlater : ∀ {node : Node} {nodes : List Node},
      (∀ n ∈ (node :: nodes).getLast?, n.isEnded source = true) →
      ∀ n ∈ nodes.getLast?, n.isEnded source = true := by
    intro node nodes hended n hn
    exact hended n (by rw [List.getLast?_cons, hn]; rfl)
  generalize hafter : ([] : List Located) = after at h
  induction h generalizing before with
  | finish => exact hnodes
  | close => simp at hafter
  | @filler c rest after nodes hfill _ ih =>
    exact .filler hfill (@ih (before ++ [c]) (by simpa using hsource) hended
      (hrising.suffix (List.suffix_cons _ _)) (hrising₀.suffix (List.suffix_cons _ _)) hafter)
  | @leaf cs next after node nodes hstarts htakes hrest ih =>
    obtain ⟨front, rfl⟩ := htakes.suffix
    rw [List.append_assoc] at hrising ⊢
    by_cases hne : next = []
    · -- Only for the last statement does it matter that it is ended.
      subst hne
      obtain rfl := hrest.nodes_nil
      subst hafter
      rw [List.append_nil] at htakes hsource hstarts
      have htakes' := htakes.append_ended hsource (hended node rfl) hmore hrising
      refine .leaf (startsNode_congr ?_ hstarts) htakes' hnodes
      exact Located.headChar_append_of_ne_nil (by rintro rfl; exact hstarts) more
    · have hs := Lexeme.standsIn_append hne more
      exact .leaf (startsNode_congr (Located.headChar_append_congr hs.head front) hstarts)
        (htakes.replace hs (hstart hne) hrising₀ hrising)
        (@ih (before ++ front) (by simpa using hsource) (hlater hended) hrising.right hrising₀.right
          hafter)
  | @block close cs inner outer after start brace head body nodes hstarts htakes hbody hbrace hrest
      ihbody ih =>
    obtain ⟨front, rfl⟩ := htakes.suffix
    obtain ⟨inside, rfl⟩ := hbody.suffix
    have hclose := Lexeme.standsIn_append (List.cons_ne_nil close outer) more
    have hs := hclose.append inside (Lexeme.joins_of_head (by simp [hbrace]))
    rw [List.append_assoc, List.append_assoc] at hrising ⊢
    refine .block (startsNode_congr (Located.headChar_append_congr hs.head front) hstarts)
      (htakes.replace hs ?_ hrising₀ hrising)
      (hbody.replace hclose rfl hrising₀.right hrising.right) hbrace
      (@ih (before ++ (front ++ (inside ++ [close]))) (by simpa using hsource) (hlater hended)
        (hrising.right.right.suffix (List.suffix_cons _ _))
        (hrising₀.right.right.suffix (List.suffix_cons _ _)) hafter)
    rw [← List.append_assoc]
    exact hstart (by simp)

end Event

/-! ## Sheets -/

/-- The characters of a text behind another one are moved on by the length of that. -/
theorem Located.ofString_append (a b : String) :
    ofString (a ++ b) = ofString a ++ (ofString b).map (move (· + a.utf8ByteSize)) := by
  have hsize : a.utf8ByteSize = 0 + size (place 0 a.toList) := (runs_ofString a).stop_eq
  rw [ofString, String.toList_append, place_append, ← hsize, ofString, ofString, ← place_add,
    Nat.zero_add]

/-- Moving a text moves the place of each of its bytes. -/
theorem Excerpt.sourceOffset_move_add (e : Excerpt) (n i : Nat) :
    (e.move (· + n)).sourceOffset i = e.sourceOffset i + n := by
  obtain ⟨chars, stop⟩ := e
  rw [sourceOffset, sourceOffset, move]
  induction chars generalizing i with
  | nil => exact Nat.add_right_comm stop n i
  | cons c chars ih =>
    rw [List.map_cons, Located.offsetAt, Located.offsetAt, Located.char_move, Located.offset_move]
    split
    · exact Nat.add_right_comm c.offset n i
    · exact ih _

/-- Reading is compositional: if the last node of a sheet is ended, another sheet behind it adds its
nodes, at all depths with the same texts and with all offsets further on by the length of the first
sheet. -/
theorem parse_append {a b : String} {first second : Sheet} (ha : Sheet.parse a = .ok first)
    (hb : Sheet.parse b = .ok second)
    (hended : ∀ node ∈ first.nodes.getLast?, node.isEnded a = true) :
    Sheet.parse (a ++ b) = .ok ⟨a ++ b, first.nodes ++
        (Retouch.move (· + a.utf8ByteSize)).nodes second.nodes⟩ ∧
      ∀ (text : Excerpt) (i : Nat), (text.move (· + a.utf8ByteSize)).text = text.text ∧
        (text.move (· + a.utf8ByteSize)).sourceOffset i = text.sourceOffset i + a.utf8ByteSize := by
  refine ⟨Event.parse_eq_ok_iff.2 ⟨rfl, ?_⟩, fun text i =>
    ⟨text.text_move _, text.sourceOffset_move_add _ i⟩⟩
  obtain ⟨_, hfirst⟩ := Event.parse_eq_ok_iff.1 ha
  obtain ⟨_, hsecond⟩ := Event.parse_eq_ok_iff.1 hb
  have hmono : StrictMono (· + a.utf8ByteSize) := fun _ _ hlt => Nat.add_lt_add_right hlt _
  have hmoved := @Event.Builds.move (· + a.utf8ByteSize) b.utf8ByteSize hmono
    (Located.ofString b) [] second.nodes (by simpa using hsecond)
    fun c _ => Nat.add_right_comm c.offset a.utf8ByteSize c.char.utf8Size
  have hsize : (a ++ b).utf8ByteSize = b.utf8ByteSize + a.utf8ByteSize := by
    rw [String.utf8ByteSize_append, Nat.add_comm]
  have hrising := Located.Rising.of_runs (Located.runs_ofString (a ++ b))
  rw [Located.ofString_append, hsize] at hrising
  rw [Located.ofString_append, hsize]
  refine hfirst.append (List.nil_append _).symm hended ?_ hrising (by simpa using hmoved)
  have hstart := Located.startOf_move (· + a.utf8ByteSize) b.utf8ByteSize (Located.ofString b)
  rw [(Located.runs_ofString b).startOf_eq, Nat.zero_add] at hstart
  exact hstart

/-- The value of the first declaration starts within a comment, with a quote that is closed by the
string of the second one. The at-rule is ended. -/
def sampleFirst : String :=
  "p/*:\"*/;q:\"é\"; @x y;"

def sampleSecond : String :=
  "/*\"*/@media (z)\x7br\x7bs:t!important\x7d\x7d"

theorem parse_append_sample : ∃ first second, Sheet.parse sampleFirst = .ok first ∧
    Sheet.parse sampleSecond = .ok second ∧ first.nodes.length = 3 ∧ second.items.length = 4 ∧
    (∀ node ∈ first.nodes.getLast?, node.isEnded sampleFirst = true) ∧
    Sheet.parse (sampleFirst ++ sampleSecond) = .ok ⟨sampleFirst ++ sampleSecond,
      first.nodes ++ (Retouch.move (· + 21)).nodes second.nodes⟩ := by
  have hsample : (Sheet.parse sampleFirst).toOption.any (fun first =>
      (Sheet.parse sampleSecond).toOption.any fun second =>
        first.nodes.length = 3 ∧ second.items.length = 4 ∧
        first.nodes.getLast?.all (Node.isEnded sampleFirst)) = true := by
    decide +kernel
  cases hfirst : Sheet.parse sampleFirst with
  | error e => simp [hfirst, Except.toOption] at hsample
  | ok first =>
    cases hsecond : Sheet.parse sampleSecond with
    | error e => simp [hsecond, Except.toOption] at hsample
    | ok second =>
      simp only [hfirst, hsecond, Except.toOption, Option.any_some, decide_eq_true_eq] at hsample
      obtain ⟨hnodes, hitems, hall⟩ := hsample
      have hended : ∀ node ∈ first.nodes.getLast?, node.isEnded sampleFirst = true := by
        simpa [Option.all_eq_true] using hall
      have hsize : sampleFirst.utf8ByteSize = 21 := by decide +kernel
      exact ⟨first, second, rfl, rfl, hnodes, hitems, hended,
        hsize ▸ (parse_append hfirst hsecond hended).1⟩

end SheetPolicy
