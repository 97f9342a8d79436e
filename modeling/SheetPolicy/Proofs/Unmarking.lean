import Mathlib
import SheetPolicy.Proofs.Locality
import SheetPolicy.Proofs.Position
import SheetPolicy.Proofs.Retouch

/-!
Sheets without their directives. Changing the first letter of every directive makes plain comments of
them (`Sheet.unmarked`). A letter means nothing to the reader, so the tree stays the same but for the
texts of those comments (`Sheet.parse_unmarked`), and so do all positions.
-/

namespace SheetPolicy

/-! ## Letters that mean nothing to the reader -/

namespace Lexeme

/-- Two characters that are the same, or letters both. -/
def AlikeChar (c d : Located) : Prop :=
  d.char = c.char ∨ (c.char.isAlpha = true ∧ d.char.isAlpha = true)

/-- The texts differ by letters only. -/
def Alike (cs ds : List Located) : Prop :=
  List.Forall₂ AlikeChar cs ds

theorem Alike.refl (cs : List Located) : Alike cs cs :=
  List.forall₂_same.2 fun _ _ => .inl rfl

theorem Alike.append {xs ys cs ds : List Located} (h : Alike xs ys) (h' : Alike cs ds) :
    Alike (xs ++ cs) (ys ++ ds) :=
  List.rel_append h h'

/-- No other character comes or goes. -/
theorem AlikeChar.eq_iff {c d : Located} (h : AlikeChar c d) {x : Char} (hx : x.isAlpha = false) :
    d.char = x ↔ c.char = x := by
  rcases h with h | ⟨hc, hd⟩
  · rw [h]
  · constructor
    · rintro rfl
      simp [hx] at hd
    · rintro rfl
      simp [hx] at hc

theorem closeString_alike {quote : Char} (hquote : quote = '"' ∨ quote = '\'') {cs ds : List Located}
    (h : Alike cs ds) (hclose : (closeString quote cs).isSome = true) :
    (closeString quote ds).isSome = true := by
  have hplain : quote.isAlpha = false := by rcases hquote with rfl | rfl <;> rfl
  fun_induction closeString quote cs generalizing ds with
  | case1 => simp at hclose
  | case2 c rest hc =>
    obtain ⟨d, ds, hd, _, rfl⟩ := List.forall₂_cons_left_iff.1 h
    rw [closeString.eq_def]
    simp [(hd.eq_iff hplain).2 hc]
  | case3 => simp at hclose
  | case4 c hc hescape e rest ih =>
    obtain ⟨d, ds, hd, hrest, rfl⟩ := List.forall₂_cons_left_iff.1 h
    obtain ⟨e', ds, _, hlater, rfl⟩ := List.forall₂_cons_left_iff.1 hrest
    have hescape' := (hd.eq_iff rfl).2 hescape
    have hc' := mt (hd.eq_iff hplain).1 hc
    simp only [closeString, if_neg hc', if_pos hescape', Option.isSome_map] at hclose ⊢
    exact ih hlater hclose
  | case5 c rest hc hescape ih =>
    obtain ⟨d, ds, hd, hrest, rfl⟩ := List.forall₂_cons_left_iff.1 h
    have hescape' := mt (hd.eq_iff rfl).1 hescape
    have hc' := mt (hd.eq_iff hplain).1 hc
    rw [Option.isSome_map] at hclose
    rw [closeString.eq_def]
    simp only [if_neg hc', if_neg hescape', Option.isSome_map]
    exact ih hrest hclose

theorem closeComment_alike {cs ds : List Located} (h : Alike cs ds)
    (hclose : (closeComment cs).isSome = true) : (closeComment ds).isSome = true := by
  fun_induction closeComment cs generalizing ds with
  | case1 => simp at hclose
  | case2 => simp at hclose
  | case3 c e rest hmark =>
    obtain ⟨d, ds, hd, hrest, rfl⟩ := List.forall₂_cons_left_iff.1 h
    obtain ⟨e', ds, he, _, rfl⟩ := List.forall₂_cons_left_iff.1 hrest
    simp [closeComment, (hd.eq_iff rfl).2 hmark.1, (he.eq_iff rfl).2 hmark.2]
  | case4 c e rest hmark ih =>
    obtain ⟨d, ds, hd, hrest, rfl⟩ := List.forall₂_cons_left_iff.1 h
    rw [Option.isSome_map] at hclose
    have hlater := ih hrest hclose
    obtain ⟨e', ds, he, _, rfl⟩ := List.forall₂_cons_left_iff.1 hrest
    rw [closeComment]
    split
    · rfl
    · rwa [Option.isSome_map]

/-- A comment is closed by the same mark if its body differs by letters, whatever follows. -/
theorem closeComment_body_alike {cs body after ds : List Located} (h : Alike body ds)
    (hclose : closeComment cs = some (body, after)) (other : List Located) :
    closeComment (ds ++ other) = some (ds, other) := by
  fun_induction closeComment cs generalizing body ds with
  | case1 => simp at hclose
  | case2 => simp at hclose
  | case3 c e rest hmark =>
    obtain ⟨rfl, _⟩ := by simpa using hclose
    obtain ⟨d, ds, hd, hrest, rfl⟩ := List.forall₂_cons_left_iff.1 h
    obtain ⟨e', ds, he, hnil, rfl⟩ := List.forall₂_cons_left_iff.1 hrest
    obtain rfl := List.forall₂_nil_left_iff.1 hnil
    simp [closeComment, (hd.eq_iff rfl).2 hmark.1, (he.eq_iff rfl).2 hmark.2]
  | case4 c e rest hmark ih =>
    obtain ⟨⟨body, _⟩, hbody, heq⟩ := Option.map_eq_some_iff.1 hclose
    obtain ⟨rfl, rfl⟩ := by simpa using heq
    obtain ⟨d, ds, hd, hrest, rfl⟩ := List.forall₂_cons_left_iff.1 h
    have hlater := ih hrest hbody
    -- The second character is one of the body, so it is no closing mark with the first there either.
    obtain ⟨more, rfl⟩ : ∃ more, body = e :: more := by
      cases body with
      | nil =>
        obtain ⟨inner, hinner, _⟩ := closeComment_chars hbody
        simp at hinner
      | cons b more => exact ⟨more, by rw [(List.cons.inj (closeComment_append hbody)).1]⟩
    obtain ⟨e', ds, he, _, rfl⟩ := List.forall₂_cons_left_iff.1 hrest
    have hmark' : ¬(d.char = '*' ∧ e'.char = '/') := by
      rwa [hd.eq_iff rfl, he.eq_iff rfl]
    rw [List.cons_append, List.cons_append, closeComment, if_neg hmark', ← List.cons_append, hlater]
    rfl

/-- Such a text stands in for the other one. -/
theorem Alike.standsIn {tail tail' : List Located} (h : Alike tail tail')
    (hhead : Located.headChar tail' = Located.headChar tail) : StandsIn tail tail' where
  head := hhead
  string _ hquote xs _ := closeString_alike hquote ((Alike.refl xs).append h)
  comment xs := closeComment_alike ((Alike.refl xs).append h)

end Lexeme

/-! ## Marks -/

/-- The character, or an `x` in its place if its offset is marked. -/
def Located.mask (marks : List Nat) (c : Located) : Located :=
  if c.offset ∈ marks then ⟨c.offset, 'x'⟩ else c

namespace Located

variable {marks : List Nat}

@[simp] theorem offset_mask (c : Located) : (mask marks c).offset = c.offset := by
  unfold mask
  split <;> rfl

@[simp] theorem offset_comp_mask : offset ∘ mask marks = offset :=
  funext offset_mask

theorem map_mask_of_unmarked {xs : List Located} (h : ∀ c ∈ xs, c.offset ∉ marks) :
    xs.map (mask marks) = xs :=
  (List.map_congr_left (g := id) fun c hc => if_neg (h c hc)).trans (List.map_id xs)

theorem map_mask_congr {marks' : List Nat} {xs : List Located}
    (h : ∀ c ∈ xs, c.offset ∈ marks ↔ c.offset ∈ marks') :
    xs.map (mask marks) = xs.map (mask marks') :=
  List.map_congr_left fun c hc => by simp only [mask, h c hc]

theorem startOf_map_mask (size : Nat) (xs after : List Located) :
    startOf size (xs.map (mask marks) ++ after) = startOf size (xs ++ after) := by
  cases xs <;> simp

theorem headChar_map_mask {xs tail tail' : List Located}
    (h : ∀ c, xs.head? = some c → c.offset ∉ marks) (htail : headChar tail' = headChar tail) :
    headChar (xs.map (mask marks) ++ tail') = headChar (xs ++ tail) := by
  cases xs with
  | nil => exact htail
  | cons c rest => simp [mask, h c rfl]

theorem Rising.of_offsets {size : Nat} {xs ys : List Located} (h : Rising size xs)
    (heq : ys.map offset = xs.map offset) : Rising size ys := by
  refine ⟨List.pairwise_map.1 (heq ▸ List.pairwise_map.2 h.ordered), fun c hc => ?_⟩
  obtain ⟨d, hd, hoffset⟩ := List.mem_map.1 (heq ▸ List.mem_map_of_mem hc)
  exact hoffset ▸ h.lt d hd

theorem map_mask_single {size : Nat} {xs ys : List Located} {c : Located}
    (h : Rising size (xs ++ c :: ys)) :
    (xs ++ c :: ys).map (mask [c.offset]) = xs ++ ⟨c.offset, 'x'⟩ :: ys := by
  obtain ⟨_, htail, hfront⟩ := List.pairwise_append.1 h.ordered
  have hxs : xs.map (mask [c.offset]) = xs := by
    refine map_mask_of_unmarked fun d hd => ?_
    have := hfront d hd c List.mem_cons_self
    rw [List.mem_singleton]
    omega
  have hys : ys.map (mask [c.offset]) = ys := by
    refine map_mask_of_unmarked fun d hd => ?_
    have := (List.pairwise_cons.1 htail).1 d hd
    rw [List.mem_singleton]
    omega
  rw [List.map_append, List.map_cons, hxs, hys, mask, if_pos List.mem_cons_self]

theorem alike_mask {xs : List Located} (h : ∀ c ∈ xs, c.offset ∈ marks → c.char = 's') :
    Lexeme.Alike xs (xs.map (mask marks)) := by
  rw [Lexeme.Alike, List.forall₂_map_right_iff]
  refine List.forall₂_same.2 fun c hc => ?_
  unfold Located.mask
  split
  · next hmark => exact .inr ⟨by rw [h c hc hmark]; rfl, rfl⟩
  · exact .inl rfl

end Located

/-- Where the body of a comment starts: after its opening mark and the blanks behind it. -/
def Comment.bodyStart (source : String) (k : Comment) : Nat :=
  Located.startOf source.utf8ByteSize
    (((Located.ofString source).dropWhile fun c => c.offset < k.span.start + 2).dropWhile fun c =>
      Text.isBlank c.char)

def Comment.isDirective (k : Comment) : Bool :=
  (Directive.parse? k.text).isSome

/-- The offsets of the first letters of all directives. -/
def Sheet.directiveMarks (sheet : Sheet) : List Nat :=
  (sheet.comments.filter Comment.isDirective).map (Comment.bodyStart sheet.source)

/-- The source with an `x` for the first letter of every directive. -/
def Sheet.unmarked (sheet : Sheet) : String :=
  Located.text ((Located.ofString sheet.source).map (Located.mask sheet.directiveMarks))

/-- The tree with the first letter of every directive changed. -/
def Retouch.unmark : Retouch where
  span := id
  excerpt := id
  comment k := if k.isDirective then ⟨k.span, String.ofList ('x' :: k.text.toList.tail)⟩ else k

/-- The marks of some nodes, at any depth. -/
def Node.marks (source : String) (nodes : List Node) : List Nat :=
  (⟨source, nodes⟩ : Sheet).directiveMarks

theorem Sheet.mem_comments {sheet : Sheet} {k : Comment} :
    k ∈ sheet.comments ↔ (Node.comment k).Occurs sheet.nodes := by
  have hpick : k ∈ sheet.comments ↔ ∃ p, (p, Item.comment k) ∈ Node.itemsOf .root sheet.nodes := by
    rw [Sheet.comments, List.mem_filterMap]
    constructor
    · rintro ⟨⟨p, i⟩, hmem, hi⟩
      cases i <;> simp at hi
      exact ⟨p, hi ▸ hmem⟩
    · rintro ⟨p, hmem⟩
      exact ⟨_, hmem, rfl⟩
  rw [hpick, Node.mem_itemsOf]
  constructor
  · rintro ⟨n, hn, hitem⟩
    cases n <;> simp [Node.item] at hitem
    exact hitem ▸ hn
  · exact fun hk => ⟨_, hk, rfl⟩

theorem Node.mem_marks {source : String} {nodes : List Node} {d : Nat} :
    d ∈ Node.marks source nodes ↔
      ∃ k : Comment, (Node.comment k).Occurs nodes ∧ k.isDirective = true ∧
        k.bodyStart source = d := by
  simp only [Node.marks, Sheet.directiveMarks, List.mem_map, List.mem_filter, Sheet.mem_comments,
    and_assoc]

theorem Node.mem_marks_cons {source : String} {node : Node} {nodes : List Node} {d : Nat} :
    d ∈ Node.marks source (node :: nodes) ↔
      (∃ k : Comment, node = .comment k ∧ k.isDirective = true ∧ k.bodyStart source = d) ∨
        d ∈ Node.marks source (node.body?.getD []) ∨ d ∈ Node.marks source nodes := by
  simp only [Node.mem_marks, Node.occurs_cons, or_and_right, exists_or]
  simp only [eq_comm]

theorem Node.marks_nil (source : String) : Node.marks source [] = [] := rfl

theorem Node.mem_marks_leaf {source : String} {node : Node} {nodes : List Node}
    (hbody : node.body? = none) (hnode : ¬∃ k : Comment, node = .comment k ∧ k.isDirective = true)
    (d : Nat) : d ∈ Node.marks source (node :: nodes) ↔ d ∈ Node.marks source nodes := by
  rw [Node.mem_marks_cons, hbody, or_iff_right, Option.getD_none, Node.marks_nil]
  · simp
  · rintro ⟨k, hk, hdirective, _⟩
    exact hnode ⟨k, hk, hdirective⟩

theorem Retouch.unmark_leaf {node : Node} (hbody : node.body? = none)
    (hnode : ¬∃ k : Comment, node = .comment k ∧ k.isDirective = true) : unmark.node node = node := by
  cases node with
  | rule | atRule => simp [Node.body?] at hbody
  | atStatement | declaration => rfl
  | comment k =>
    have hk : ¬k.isDirective = true := fun hk => hnode ⟨k, rfl, hk⟩
    exact congrArg Node.comment (if_neg hk)

theorem Node.mem_marks_comment {source : String} {k : Comment} {nodes : List Node} {d : Nat} :
    d ∈ Node.marks source (.comment k :: nodes) ↔
      (k.isDirective = true ∧ k.bodyStart source = d) ∨ d ∈ Node.marks source nodes := by
  simp [Node.mem_marks_cons, Node.body?, Node.marks_nil]

/-! ## The first letter of a directive -/

theorem Text.trimChars_of_head {gap rest : List Char} {c : Char}
    (hgap : ∀ d ∈ gap, Text.isBlank d = true) (hc : Text.isBlank c = false) :
    Text.trimChars (gap ++ c :: rest) = c :: Text.dropRightWhile Text.isBlank rest := by
  rw [Text.trimChars, List.dropWhile_append_of_pos hgap, List.dropWhile_cons_of_neg (by simp [hc])]
  simp only [Text.dropRightWhile, List.reverse_cons, List.dropWhile_append]
  split
  · next hempty => simp [List.isEmpty_iff.1 hempty, hc]
  · simp

theorem Text.trim_text_of_head {gap rest : List Located} {c : Located}
    (hgap : ∀ d ∈ gap, Text.isBlank d.char = true) (hc : Text.isBlank c.char = false) :
    Text.trim (Located.text (gap ++ c :: rest)) =
      String.ofList (c.char :: Text.dropRightWhile Text.isBlank (rest.map Located.char)) := by
  rw [Text.trim, Located.text, String.toList_ofList, List.map_append, List.map_cons,
    Text.trimChars_of_head (by simpa using hgap) hc]

namespace Directive

/-- A directive starts with the first letter of the tool's name. -/
theorem head_of_parse? {body : String} (h : (parse? body).isSome = true) :
    (Text.trimChars body.toList).head? = some 's' := by
  obtain ⟨d, hd⟩ := Option.isSome_iff_exists.1 h
  obtain ⟨words, hwords, _⟩ := Option.bind_eq_some_iff.1 hd
  cases htrim : Text.trimChars body.toList with
  | nil => simp [htrim, Text.afterPrefix?] at hwords
  | cons c rest =>
    rw [htrim] at hwords
    by_cases hc : 's' = c
    · rw [hc]
      rfl
    · simp [Text.afterPrefix?, hc] at hwords

/-- A directive has blanks at most before its first letter. -/
theorem exists_first {inside : List Located}
    (h : (parse? (Text.trim (Located.text inside))).isSome = true) :
    ∃ gap letter tail, inside = gap ++ letter :: tail ∧
      (∀ d ∈ gap, Text.isBlank d.char = true) ∧ letter.char = 's' := by
  have hhead := head_of_parse? h
  have happ := List.takeWhile_append_dropWhile (p := fun d : Located => Text.isBlank d.char)
    (l := inside)
  have hgap : ∀ d ∈ inside.takeWhile (fun d => Text.isBlank d.char), Text.isBlank d.char = true :=
    fun d hd => List.mem_takeWhile_imp (p := fun d : Located => Text.isBlank d.char) hd
  cases hdrop : inside.dropWhile (fun d => Text.isBlank d.char) with
  | nil =>
    -- A body of blanks is no directive.
    have hblank : (inside.map Located.char).dropWhile Text.isBlank = [] := by
      rw [List.dropWhile_map]
      exact congrArg (List.map Located.char) hdrop
    simp [Text.trim, Located.text, Text.trimChars, Text.dropRightWhile, hblank] at hhead
  | cons letter tail =>
    have hletter : Text.isBlank letter.char = false := by
      have := List.head?_dropWhile_not (fun d : Located => Text.isBlank d.char) inside
      simpa [hdrop] using this
    rw [hdrop] at happ
    refine ⟨_, letter, tail, happ.symm, hgap, ?_⟩
    rw [← happ, Text.trim_text_of_head hgap hletter, String.toList_ofList,
      ← List.nil_append (letter.char :: _), Text.trimChars_of_head (by simp) hletter] at hhead
    exact Option.some_inj.1 hhead

end Directive

theorem Comment.bodyStart_eq {source : String} {before after : List Located} {c star : Located}
    {k : Comment} (hsource : Located.ofString source = before ++ c :: star :: after)
    (hc : c.char = '/') (hstar : star.char = '*') (hstart : k.span.start = c.offset) :
    k.bodyStart source =
      Located.startOf source.utf8ByteSize (after.dropWhile fun d => Text.isBlank d.char) := by
  have hruns := Located.runs_ofString source
  rw [hsource] at hruns
  obtain ⟨hbefore, hcoffset, hstaroffset, hafter⟩ := hruns.of_append
  have hcstop : c.stop = c.offset + 1 := by rw [Located.stop, hc]; rfl
  have hstarstop : star.stop = c.offset + 2 := by rw [Located.stop, hstar, hstaroffset, hcstop]; rfl
  have hdrop : (Located.ofString source).dropWhile (fun d => d.offset < k.span.start + 2) = after := by
    have hfront : ∀ d ∈ before ++ [c, star], d.offset < k.span.start + 2 := by
      intro d hd
      rcases List.mem_append.1 hd with hd | hd
      · have := (hbefore.offset_mem hd).2
        have := d.offset_lt_stop
        omega
      · rcases List.mem_pair.1 hd with rfl | rfl <;> omega
    have hsplit : before ++ c :: star :: after = (before ++ [c, star]) ++ after := by simp
    rw [hsource, hsplit, List.dropWhile_append_of_pos (by simpa using hfront)]
    cases after with
    | nil => rfl
    | cons d after =>
      have : d.offset = c.offset + 2 := hafter.1.trans hstarstop
      exact List.dropWhile_cons_of_neg (by simp; omega)
  rw [Comment.bodyStart, hdrop]

/-- The text of a comment that is a directive, and its first letter. -/
structure Comment.Letter (source : String) (k : Comment) (body gap : List Located) (letter : Located)
    (rest : List Located) : Prop where
  body_eq : body = gap ++ letter :: rest
  letter_char : letter.char = 's'
  bodyStart_eq : k.bodyStart source = letter.offset
  close : ∀ other changed, changed.char = 'x' →
    Lexeme.closeComment (gap ++ changed :: rest ++ other) = some (gap ++ changed :: rest, other)
  text : ∀ changed, changed.char = 'x' →
    Text.trim (Located.text ((gap ++ changed :: rest).take (body.length - 2))) =
      String.ofList ('x' :: k.text.toList.tail)

theorem Comment.exists_letter {source : String} {before body next : List Located} {c star : Located}
    {k : Comment} (hsource : Located.ofString source = before ++ c :: star :: (body ++ next))
    (hc : c.char = '/') (hstar : star.char = '*')
    (hclose : Lexeme.closeComment (body ++ next) = some (body, next))
    (hstart : k.span.start = c.offset)
    (htext : k.text = Text.trim (Located.text (body.take (body.length - 2))))
    (hk : k.isDirective = true) :
    ∃ gap letter rest, k.Letter source body gap letter rest := by
  obtain ⟨inner, hinner, _⟩ := Lexeme.closeComment_chars hclose
  obtain ⟨inside, ends, rfl, _, hends⟩ := List.map_eq_append_iff.1 hinner
  have hlength : ends.length = 2 := by simpa using congrArg List.length hends
  have htake : ∀ xs : List Located, (xs ++ ends).take ((xs ++ ends).length - 2) = xs := by
    simp [hlength]
  rw [htake] at htext
  rw [Comment.isDirective, htext] at hk
  obtain ⟨gap, letter, tail, rfl, hgap, hs⟩ := Directive.exists_first hk
  have hletter : Text.isBlank letter.char = false := by rw [hs]; rfl
  refine ⟨gap, letter, tail ++ ends, by simp, hs, ?_, ?_, ?_⟩
  · rw [Comment.bodyStart_eq hsource hc hstar hstart, List.append_assoc, List.append_assoc,
      List.dropWhile_append_of_pos hgap, List.cons_append,
      List.dropWhile_cons_of_neg (by simp [hletter]), Located.startOf_cons]
  · intro other changed hchanged
    have halike : Lexeme.Alike (gap ++ letter :: tail ++ ends) (gap ++ changed :: (tail ++ ends)) := by
      rw [List.append_assoc, List.cons_append]
      exact (Lexeme.Alike.refl gap).append (.cons (.inr ⟨by rw [hs]; rfl, by rw [hchanged]; rfl⟩)
        (Lexeme.Alike.refl _))
    exact Lexeme.closeComment_body_alike halike hclose other
  · intro changed hchanged
    have hinside : (gap ++ changed :: (tail ++ ends)).take
        ((gap ++ letter :: tail ++ ends).length - 2) = gap ++ changed :: tail := by
      simpa using htake (gap ++ changed :: tail)
    rw [hinside, Text.trim_text_of_head hgap (by rw [hchanged]; rfl), htext,
      Text.trim_text_of_head hgap hletter, String.toList_ofList, List.tail_cons, hchanged]

/-! ## The tree without directives -/

namespace Event

/-- What the marks of some nodes do to the text that the nodes are read from: each mark is at an `s`
behind the first character, and with the marks changed the text is that of the retouched nodes. -/
structure Unmarks (source : String) (nodes : List Node) (taken after : List Located) : Prop where
  letter : ∀ d ∈ Node.marks source nodes, ∃ c ∈ taken.tail, c.offset = d ∧ c.char = 's'
  builds : Builds source.utf8ByteSize
    (taken.map (Located.mask (Node.marks source nodes)) ++ after) (Retouch.unmark.nodes nodes) after

variable {source : String} {nodes : List Node} {taken after : List Located}

namespace Unmarks

/-- What stands before the text has no marks of it. -/
theorem not_marked (h : Unmarks source nodes taken after) {front : List Located} {size : Nat}
    (hrising : Located.Rising size (front ++ taken)) {c : Located} (hc : c ∈ front) :
    c.offset ∉ Node.marks source nodes := by
  intro hmark
  obtain ⟨d, hd, hoffset, _⟩ := h.letter _ hmark
  have := (List.pairwise_append.1 hrising.ordered).2.2 c hc d (List.mem_of_mem_tail hd)
  omega

/-- What stands behind the text has no marks of it. -/
theorem not_marked_behind (h : Unmarks source nodes taken after) {back : List Located} {size : Nat}
    (hrising : Located.Rising size (taken ++ back)) {c : Located} (hc : c ∈ back) :
    c.offset ∉ Node.marks source nodes := by
  intro hmark
  obtain ⟨d, hd, hoffset, _⟩ := h.letter _ hmark
  have := (List.pairwise_append.1 hrising.ordered).2.2 d (List.mem_of_mem_tail hd) c hc
  omega

theorem char_eq (h : Unmarks source nodes taken after) {size : Nat}
    (hrising : Located.Rising size taken) {c : Located} (hc : c ∈ taken)
    (hmark : c.offset ∈ Node.marks source nodes) : c.char = 's' := by
  obtain ⟨d, hd, hoffset, hchar⟩ := h.letter _ hmark
  rwa [hrising.eq_of_offset hc (List.mem_of_mem_tail hd) hoffset.symm]

theorem alike (h : Unmarks source nodes taken after) {size : Nat}
    (hrising : Located.Rising size taken) :
    Lexeme.Alike taken (taken.map (Located.mask (Node.marks source nodes))) :=
  Located.alike_mask fun _ hc => h.char_eq hrising hc

theorem headChar_eq (h : Unmarks source nodes taken after) {size : Nat}
    (hrising : Located.Rising size taken) {tail tail' : List Located}
    (htail : Located.headChar tail' = Located.headChar tail) :
    Located.headChar (taken.map (Located.mask (Node.marks source nodes)) ++ tail') =
      Located.headChar (taken ++ tail) := by
  refine Located.headChar_map_mask (fun c hc hmark => ?_) htail
  obtain ⟨d, hd, hoffset, _⟩ := h.letter _ hmark
  obtain ⟨rest, rfl⟩ := List.head?_eq_some_iff.1 hc
  have := (List.pairwise_cons.1 hrising.ordered).1 d hd
  omega

/-- The changed text stands in for the text. -/
theorem standsIn (h : Unmarks source nodes taken after) {size : Nat}
    (hrising : Located.Rising size taken) {tail tail' : List Located}
    (htail : Lexeme.Alike tail tail') (hhead : Located.headChar tail' = Located.headChar tail) :
    Lexeme.StandsIn (taken ++ tail)
      (taken.map (Located.mask (Node.marks source nodes)) ++ tail') :=
  ((h.alike hrising).append htail).standsIn (h.headChar_eq hrising hhead)

/-- A blank or a semicolon in front. -/
theorem cons_filler {c : Located} {size : Nat} (h : Unmarks source nodes taken after) (hfill : IsFiller c)
    (hrising : Located.Rising size (c :: (taken ++ after))) :
    Unmarks source nodes (c :: taken) after := by
  constructor
  · intro d hd
    obtain ⟨x, hx, hxs⟩ := h.letter d hd
    exact ⟨x, List.mem_of_mem_tail hx, hxs⟩
  · have hfront : Located.Rising size ([c] ++ taken) := @Located.Rising.left _ _ after hrising
    have hc : c.offset ∉ Node.marks source nodes := h.not_marked hfront (by simp)
    rw [List.map_cons, List.cons_append, Located.mask, if_neg hc]
    exact .filler hfill h.builds

/-- A node in front, with marks of its own. -/
theorem cons {middle front : List Located} {node : Node} (h : Unmarks source nodes middle after)
    {size : Nat} (hrising : Located.Rising size (front ++ middle)) (marks : List Nat)
    (hmarks : ∀ d, d ∈ Node.marks source (node :: nodes) ↔ d ∈ marks ∨ d ∈ Node.marks source nodes)
    (hletter : ∀ d ∈ marks, ∃ c ∈ front.tail, c.offset = d ∧ c.char = 's')
    (hbuilds : Builds source.utf8ByteSize (front.map (Located.mask marks) ++
      (middle.map (Located.mask (Node.marks source nodes)) ++ after))
      (Retouch.unmark.nodes (node :: nodes)) after) :
    Unmarks source (node :: nodes) (front ++ middle) after := by
  have hapart := (List.pairwise_append.1 hrising.ordered).2.2
  constructor
  · intro d hd
    rcases (hmarks d).1 hd with hd | hd
    · obtain ⟨c, hc, hcs⟩ := hletter d hd
      cases front with
      | nil => simp at hc
      | cons e front => exact ⟨c, List.mem_append_left _ hc, hcs⟩
    · obtain ⟨c, hc, hcs⟩ := h.letter d hd
      cases front with
      | nil => exact ⟨c, hc, hcs⟩
      | cons e front => exact ⟨c, List.mem_append_right _ (List.mem_of_mem_tail hc), hcs⟩
  · -- Each part of the text has the marks of its own nodes only.
    have hfront : ∀ c ∈ front, c.offset ∈ Node.marks source (node :: nodes) ↔ c.offset ∈ marks := by
      intro c hc
      rw [hmarks, or_iff_left (h.not_marked hrising hc)]
    have hmiddle : ∀ c ∈ middle, c.offset ∈ Node.marks source (node :: nodes) ↔
        c.offset ∈ Node.marks source nodes := by
      intro c hc
      rw [hmarks, or_iff_right]
      intro hmark
      obtain ⟨d, hd, hoffset, _⟩ := hletter _ hmark
      have := hapart d (List.mem_of_mem_tail hd) c hc
      omega
    rwa [List.map_append, Located.map_mask_congr hfront, Located.map_mask_congr hmiddle,
      List.append_assoc]

/-- A node in front that has no marks. -/
theorem cons_leaf {middle front : List Located} {node : Node} (h : Unmarks source nodes middle after)
    (hrising : Located.Rising source.utf8ByteSize (front ++ (middle ++ after)))
    (hstart : StartsNode (front ++ (middle ++ after)))
    (htakes : Takes source.utf8ByteSize (front ++ (middle ++ after)) (.leaf node) (middle ++ after))
    (hnode : Retouch.unmark.node node = node)
    (hmarks : ∀ d, d ∈ Node.marks source (node :: nodes) ↔ d ∈ Node.marks source nodes) :
    Unmarks source (node :: nodes) (front ++ middle) after := by
  have hs := h.standsIn hrising.right.left (Lexeme.Alike.refl after) rfl
  refine h.cons (List.append_assoc front _ _ ▸ hrising).left [] (by simpa using hmarks) (by simp) ?_
  rw [Located.map_mask_of_unmarked (by simp), Retouch.nodes, hnode]
  exact .leaf (startsNode_congr (Located.headChar_append_congr hs.head front) hstart)
    (htakes.replace hs (Located.startOf_map_mask _ _ _) hrising (hrising.of_offsets (by simp)))
    h.builds

/-- A directive in front. -/
theorem cons_directive {before middle body : List Located} {c star : Located} {k : Comment}
    (h : Unmarks source nodes middle after)
    (hsource : Located.ofString source = before ++ c :: star :: (body ++ (middle ++ after)))
    (hc : c.char = '/') (hstar : star.char = '*')
    (hclose : Lexeme.closeComment (body ++ (middle ++ after)) = some (body, middle ++ after))
    (hspan : k.span = ⟨c.offset, Located.startOf source.utf8ByteSize (middle ++ after)⟩)
    (htext : k.text = Text.trim (Located.text (body.take (body.length - 2))))
    (hk : k.isDirective = true) :
    Unmarks source (.comment k :: nodes) (c :: star :: body ++ middle) after := by
  have hrising := Located.Rising.of_runs (Located.runs_ofString source)
  rw [hsource] at hrising
  obtain ⟨gap, letter, rest, hletter⟩ := Comment.exists_letter hsource hc hstar hclose
    (congrArg Span.start hspan) htext hk
  obtain ⟨hbody, hs, hoffset, hclose', htext'⟩ := hletter
  have hfront : Located.Rising source.utf8ByteSize (c :: star :: body ++ middle) := by
    refine @Located.Rising.left _ _ after ?_
    simpa using hrising.right
  refine h.cons hfront [letter.offset] ?_ ?_ ?_
  · intro d
    rw [Node.mem_marks_comment, hoffset, List.mem_singleton, and_iff_right hk, eq_comm]
  · intro d hd
    obtain rfl := List.mem_singleton.1 hd
    exact ⟨letter, by simp [hbody], rfl, hs⟩
  · have hmask : (c :: star :: body).map (Located.mask [letter.offset]) =
        c :: star :: (gap ++ ⟨letter.offset, 'x'⟩ :: rest) := by
      have := hfront.left
      rw [hbody] at this ⊢
      exact @Located.map_mask_single _ (c :: star :: gap) _ _ this
    have htakes := @Takes.comment source.utf8ByteSize c star _
      (middle.map (Located.mask (Node.marks source nodes)) ++ after) hc hstar
      (hclose' _ ⟨letter.offset, 'x'⟩ rfl)
    have hlength : (gap ++ ⟨letter.offset, 'x'⟩ :: rest).length = body.length := by simp [hbody]
    rw [hlength, htext' _ rfl, Located.startOf_map_mask, ← hspan] at htakes
    have hnode : Retouch.unmark.node (.comment k) =
        .comment ⟨k.span, String.ofList ('x' :: k.text.toList.tail)⟩ := by
      simp [Retouch.node, Retouch.unmark, hk]
    rw [hmask, Retouch.nodes, hnode]
    exact .leaf (by simp [StartsNode, IsFiller, hc, Text.isSpace]) htakes h.builds

/-- A block in front. -/
theorem cons_block {front inside middle : List Located} {close : Located} {start brace : Nat}
    {head : Head} {body : List Node} (h : Unmarks source nodes middle after)
    (hinside : Unmarks source body inside (close :: (middle ++ after))) (hclose : close.char = '}')
    (hrising : Located.Rising source.utf8ByteSize
      (front ++ (inside ++ close :: (middle ++ after))))
    (hstart : StartsNode (front ++ (inside ++ close :: (middle ++ after))))
    (htakes : Takes source.utf8ByteSize (front ++ (inside ++ close :: (middle ++ after)))
      (.opens start brace head) (inside ++ close :: (middle ++ after))) :
    Unmarks source (head.node ⟨start, close.stop⟩ body :: nodes)
      (front ++ (inside ++ close :: middle)) after := by
  have hmiddle : Located.Rising source.utf8ByteSize (middle ++ after) :=
    hrising.suffix ⟨front ++ (inside ++ [close]), by simp⟩
  have htext : Located.Rising source.utf8ByteSize (front ++ (inside ++ close :: middle)) := by
    refine @Located.Rising.left _ _ after ?_
    simpa using hrising
  have hbody : (head.node ⟨start, close.stop⟩ body).body? = some body := by cases head <;> rfl
  have hnode : Retouch.unmark.node (head.node ⟨start, close.stop⟩ body) =
      head.node ⟨start, close.stop⟩ (Retouch.unmark.nodes body) := by cases head <;> rfl
  have hsplit : front ++ (inside ++ close :: middle) = (front ++ inside ++ [close]) ++ middle := by simp
  rw [hsplit] at htext ⊢
  refine h.cons htext (Node.marks source body) ?_ ?_ ?_
  · intro d
    have hcomment : ∀ k, head.node ⟨start, close.stop⟩ body ≠ .comment k := by
      cases head <;> intro k hk <;> cases hk
    simp [Node.mem_marks_cons, hbody, hcomment]
  · intro d hd
    obtain ⟨c, hc, hcs⟩ := hinside.letter d hd
    refine ⟨c, ?_, hcs⟩
    cases front with
    | nil => cases inside <;> simp_all
    | cons e front => simp [List.mem_of_mem_tail hc]
  · have hmask : (front ++ inside ++ [close]).map (Located.mask (Node.marks source body)) =
        front ++ inside.map (Located.mask (Node.marks source body)) ++ [close] := by
      have hfront : Located.Rising source.utf8ByteSize (front ++ inside) := htext.left.left
      have hbehind : Located.Rising source.utf8ByteSize (inside ++ [close]) := by
        have := htext.left
        rw [List.append_assoc] at this
        exact this.right
      rw [List.map_append, List.map_append,
        Located.map_mask_of_unmarked fun c hc => hinside.not_marked hfront hc,
        Located.map_mask_of_unmarked fun c hc => hinside.not_marked_behind hbehind hc]
    rw [hmask, Retouch.nodes, hnode]
    simp only [List.append_assoc, List.singleton_append]
    have hs := h.standsIn hmiddle.left (Lexeme.Alike.refl after) rfl
    have hclosed := hs.append [close] (Lexeme.joins_of_free (by simp [hclose]))
    have hinner := hinside.standsIn hrising.right.left ((Lexeme.Alike.refl [close]).append
      ((h.alike hmiddle.left).append (Lexeme.Alike.refl after))) rfl
    refine .block (startsNode_congr (Located.headChar_append_congr hinner.head front) hstart)
      (htakes.replace hinner ?_ hrising (hrising.of_offsets (by simp)))
      (hinside.builds.replace hclosed rfl ?_ ?_) hclose h.builds
    · cases inside <;> simp
    · exact hrising.right.of_offsets (by simp)
    · exact hrising.right.of_offsets (by simp)

end Unmarks

theorem Takes.comment_cases {front next : List Located} {size : Nat} {k : Comment}
    (h : Takes size (front ++ next) (.leaf (.comment k)) next) :
    ∃ c star body, front = c :: star :: body ∧ c.char = '/' ∧ star.char = '*' ∧
      Lexeme.closeComment (body ++ next) = some (body, next) ∧
      k = ⟨⟨c.offset, Located.startOf size next⟩,
        Text.trim (Located.text (body.take (body.length - 2)))⟩ := by
  generalize hcs : front ++ next = cs at h
  generalize he : Event.leaf (.comment k) = e at h
  cases h with
  | @comment c star body _ hc hstar hclose =>
    obtain rfl : front = c :: star :: body :=
      List.append_cancel_right (hcs.trans (by simp) : _ = (c :: star :: body) ++ next)
    exact ⟨c, star, body, rfl, hc, hstar, hclose, by simpa using he⟩
  | atRule _ _ _ _ _ hend =>
    rcases (atRuleEnd_cases hend).2 with ⟨_, rfl⟩ | ⟨_, rfl⟩ <;> simp at he
  | rule => simp at he
  | declaration => simp at he

/-- The text of some nodes with the first letter of every directive changed. -/
theorem Builds.unmarks {cs : List Located} (h : Builds source.utf8ByteSize cs nodes after)
    {before : List Located} (hsource : Located.ofString source = before ++ cs) :
    ∃ taken, cs = taken ++ after ∧ Unmarks source nodes taken after := by
  have hrising : ∀ {cs : List Located}, Located.ofString source = cs →
      Located.Rising source.utf8ByteSize cs :=
    fun hcs => hcs ▸ Located.Rising.of_runs (Located.runs_ofString source)
  induction h generalizing before with
  | finish => exact ⟨[], rfl, by simp [Node.marks_nil], .finish⟩
  | close hclose => exact ⟨[], rfl, by simp [Node.marks_nil], .close hclose⟩
  | @filler c rest after nodes hfill _ ih =>
    obtain ⟨taken, rfl, htaken⟩ := @ih (before ++ [c]) (by simpa using hsource)
    exact ⟨c :: taken, rfl, htaken.cons_filler hfill (hrising hsource).right⟩
  | @leaf cs next after node nodes hstart htakes _ ih =>
    obtain ⟨front, rfl⟩ := htakes.suffix
    obtain ⟨middle, rfl, hmiddle⟩ := @ih (before ++ front) (by simpa using hsource)
    refine ⟨front ++ middle, by simp, ?_⟩
    by_cases hdirective : ∃ k : Comment, node = .comment k ∧ k.isDirective = true
    · obtain ⟨k, rfl, hk⟩ := hdirective
      obtain ⟨c, star, body, rfl, hc, hstar, hclose, rfl⟩ := htakes.comment_cases
      exact hmiddle.cons_directive hsource hc hstar hclose rfl rfl hk
    · exact hmiddle.cons_leaf (hrising hsource).right hstart htakes
        (Retouch.unmark_leaf htakes.body?_leaf hdirective)
        (Node.mem_marks_leaf htakes.body?_leaf hdirective)
  | @block close cs inner outer after start brace head body nodes hstart htakes _ hclose _ ihbody ih =>
    obtain ⟨front, rfl⟩ := htakes.suffix
    obtain ⟨inside, rfl, hinside⟩ := @ihbody (before ++ front) (by simpa using hsource)
    obtain ⟨middle, rfl, hmiddle⟩ := @ih (before ++ (front ++ (inside ++ [close])))
      (by simpa using hsource)
    exact ⟨_, by simp, hmiddle.cons_block hinside hclose (hrising hsource).right hstart htakes⟩

end Event

/-! ## The sheet without directives -/

namespace Sheet

variable {source : String} {sheet : Sheet}

/-- The sheet with the first letter of every directive changed. -/
def plain (sheet : Sheet) : Sheet :=
  ⟨sheet.unmarked, Retouch.unmark.nodes sheet.nodes⟩

section Unmarked

variable (hletter : ∀ c ∈ Located.ofString sheet.source, c.offset ∈ sheet.directiveMarks → c.char = 's')
include hletter

theorem char_mask {c : Located} (hc : c ∈ Located.ofString sheet.source) :
    (Located.mask sheet.directiveMarks c).char = c.char ∨
      c.char = 's' ∧ (Located.mask sheet.directiveMarks c).char = 'x' := by
  unfold Located.mask
  split
  · next hmark => exact .inr ⟨hletter c hc hmark, rfl⟩
  · exact .inl rfl

theorem runs_mask {start stop : Nat} {xs : List Located} (hsub : xs ⊆ Located.ofString sheet.source)
    (h : Located.Runs start xs stop) :
    Located.Runs start (xs.map (Located.mask sheet.directiveMarks)) stop := by
  induction xs generalizing start with
  | nil => exact h
  | cons c rest ih =>
    have hstop : (Located.mask sheet.directiveMarks c).stop = c.stop := by
      rcases char_mask hletter (hsub List.mem_cons_self) with hc | ⟨hc, hc'⟩
      · rw [Located.stop, Located.stop, hc, Located.offset_mask]
      · rw [Located.stop, Located.stop, hc, hc', Located.offset_mask]
        rfl
    refine ⟨(Located.offset_mask c).trans h.1, hstop ▸ ih ?_ h.2⟩
    exact fun d hd => hsub (List.mem_cons_of_mem _ hd)

theorem ofString_unmarked :
    Located.ofString sheet.unmarked =
      (Located.ofString sheet.source).map (Located.mask sheet.directiveMarks) :=
  Located.ofString_text (runs_mask hletter (List.Subset.refl _) (Located.runs_ofString _))

theorem utf8ByteSize_unmarked : sheet.unmarked.utf8ByteSize = sheet.source.utf8ByteSize := by
  have hruns := runs_mask hletter (List.Subset.refl _) (Located.runs_ofString _)
  rw [unmarked, Located.utf8ByteSize_text, ← Nat.zero_add (Located.size _), ← hruns.stop_eq]

theorem ofOffset_unmarked (offset : Nat) :
    Position.ofOffset sheet.unmarked offset = Position.ofOffset sheet.source offset := by
  refine Position.scan_congr ?_ offset 0 1 0 1
  have hchars : ∀ s : String, s.toList = (Located.ofString s).map Located.char :=
    fun s => (Located.map_char_place 0 s.toList).symm
  rw [hchars, hchars, ofString_unmarked hletter, List.map_map, List.forall₂_map_left_iff,
    List.forall₂_map_right_iff]
  refine List.forall₂_same.2 fun c hc => ?_
  rw [Function.comp_apply]
  rcases char_mask hletter hc with hc | ⟨hc, hc'⟩
  · rw [hc]
    exact ⟨rfl, Iff.rfl⟩
  · rw [hc, hc']
    decide

theorem isBoundary_unmarked (o : Nat) :
    isBoundary sheet.unmarked o = isBoundary sheet.source o := by
  simp [isBoundary, ofString_unmarked hletter, utf8ByteSize_unmarked hletter, List.any_map,
    Function.comp_def]

theorem isSingleLine_plain (head : StyleRule) :
    SingleLine.isSingleLine sheet.plain head = SingleLine.isSingleLine sheet head := by
  simp only [SingleLine.isSingleLine, slice, plain, isBoundary_unmarked hletter]
  split
  · rw [ofString_unmarked hletter, List.filter_map]
    simp only [Located.text, String.toList_ofList, List.all_map, Function.comp_def,
      Located.offset_mask]
    refine Bool.eq_iff_iff.2 ?_
    rw [List.all_eq_true, List.all_eq_true]
    refine forall₂_congr fun c hc => ?_
    rcases char_mask hletter (List.mem_of_mem_filter hc) with hc | ⟨hc, hc'⟩
    · rw [hc]
    · rw [hc, hc']
      decide
  · rfl

end Unmarked

/-- The first letter of every directive is an `s`. -/
theorem char_of_mark (h : Sheet.parse source = .ok sheet) {c : Located}
    (hc : c ∈ Located.ofString sheet.source) (hmark : c.offset ∈ sheet.directiveMarks) :
    c.char = 's' := by
  obtain ⟨rfl, hbuilds⟩ := Event.parse_eq_ok_iff.1 h
  obtain ⟨taken, htaken, hunmarks⟩ := hbuilds.unmarks (List.nil_append _).symm
  rw [List.append_nil] at htaken
  rw [htaken] at hc
  have hrising := Located.Rising.of_runs (Located.runs_ofString sheet.source)
  rw [htaken] at hrising
  exact hunmarks.char_eq hrising hc hmark

theorem exists_of_mark (h : Sheet.parse source = .ok sheet) {d : Nat}
    (hmark : d ∈ sheet.directiveMarks) :
    ∃ c ∈ Located.ofString sheet.source, c.offset = d := by
  obtain ⟨rfl, hbuilds⟩ := Event.parse_eq_ok_iff.1 h
  obtain ⟨taken, htaken, hunmarks⟩ := hbuilds.unmarks (List.nil_append _).symm
  obtain ⟨c, hc, hoffset, _⟩ := hunmarks.letter d hmark
  rw [htaken, List.append_nil]
  exact ⟨c, List.mem_of_mem_tail hc, hoffset⟩

theorem parse_unmarked (h : Sheet.parse source = .ok sheet) :
    Sheet.parse sheet.unmarked = .ok sheet.plain := by
  have hletter := fun c => @char_of_mark _ _ h c
  obtain ⟨rfl, hbuilds⟩ := Event.parse_eq_ok_iff.1 h
  obtain ⟨taken, htaken, hunmarks⟩ := hbuilds.unmarks (List.nil_append _).symm
  refine Event.parse_eq_ok_iff.2 ⟨rfl, ?_⟩
  have := hunmarks.builds
  rw [List.append_nil] at htaken this
  rw [utf8ByteSize_unmarked hletter, ofString_unmarked hletter, htaken]
  exact this

end Sheet

end SheetPolicy
