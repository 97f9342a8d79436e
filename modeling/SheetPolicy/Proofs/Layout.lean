import Mathlib
import SheetPolicy.Proofs.Statement

/-!
Where the nodes of a sheet stand. The nodes of a block tile it: they follow each other, and between
them there are only blanks and semicolons (`Tiles`). Every node of a sheet that parses has a span of
its own, its block lies within that span, and its text can be taken back to the source byte by byte
(`parse_placed`, `tree_preserves_source`).
-/

namespace SheetPolicy

/-! ## Nodes at any depth -/

/-- The nodes of the block of a node, if it has one. -/
def Node.body? : Node → Option (List Node)
  | .rule _ body => some body
  | .atRule _ body => some body
  | .atStatement _ | .declaration _ | .comment _ => none

/-- The node is one of `nodes` or stands in a block of one of them, at any depth. -/
inductive Node.Occurs (node : Node) : List Node → Prop
  | here {nodes : List Node} : node ∈ nodes → Node.Occurs node nodes
  | inside {nodes body : List Node} {outer : Node} :
      outer ∈ nodes → outer.body? = some body → Node.Occurs node body → Node.Occurs node nodes

theorem Node.not_occurs_nil (node : Node) : ¬node.Occurs [] := by
  rintro (h | ⟨houter, _, _⟩)
  · simp at h
  · simp at houter

theorem Node.occurs_cons {node first : Node} {nodes : List Node} :
    node.Occurs (first :: nodes) ↔
      node = first ∨ node.Occurs (first.body?.getD []) ∨ node.Occurs nodes := by
  constructor
  · rintro (h | ⟨houter, hbody, h⟩)
    · rcases List.mem_cons.1 h with rfl | h
      · exact .inl rfl
      · exact .inr (.inr (.here h))
    · rcases List.mem_cons.1 houter with rfl | houter
      · exact .inr (.inl (by rwa [hbody]))
      · exact .inr (.inr (.inside houter hbody h))
  · rintro (rfl | h | h)
    · exact .here List.mem_cons_self
    · cases hbody : first.body? with
      | none =>
        rw [hbody] at h
        exact absurd h node.not_occurs_nil
      | some body =>
        rw [hbody] at h
        exact .inside List.mem_cons_self hbody h
    · cases h with
      | here h => exact .here (List.mem_cons_of_mem _ h)
      | inside houter hbody h => exact .inside (List.mem_cons_of_mem _ houter) hbody h

/-- Induction over nodes at any depth: a node comes with the nodes of its block and the nodes after
it. -/
theorem Node.forest_induction {motive : List Node → Prop} (nil : motive [])
    (cons : ∀ (node : Node) (nodes : List Node), motive (node.body?.getD []) → motive nodes →
      motive (node :: nodes)) (nodes : List Node) : motive nodes :=
  Node.itemsOf.induct (fun _ node => motive (node.body?.getD [])) (fun _ nodes => motive nodes)
    (fun _ _ _ h => h) (fun _ _ _ h => h) (fun _ _ => nil) (fun _ _ => nil) (fun _ _ => nil)
    (fun _ => nil) (fun _ node nodes => cons node nodes) .root nodes

/-! ## Tilings -/

/-- The nodes lie between `low` and `high`, one after the other, and what is in no node's span is
blank or a semicolon. -/
structure Tiles (source : String) (low high : Nat) (nodes : List Node) : Prop where
  within : ∀ n ∈ nodes, low ≤ n.span.start ∧ n.span.stop ≤ high
  ordered : nodes.Pairwise fun a b => a.span.stop ≤ b.span.start
  filled : ∀ c ∈ Located.ofString source, low ≤ c.offset → c.offset < high →
    (∃ n ∈ nodes, n.span.start ≤ c.offset ∧ c.offset < n.span.stop) ∨
      Text.isBlank c.char = true ∨ c.char = ';'

section Tiling

variable {source : String} {before xs ys : List Located}

/-- The part of a source from one place up to the next. -/
theorem mem_of_between (hsource : Located.ofString source = before ++ (xs ++ ys)) {c : Located}
    (hc : c ∈ Located.ofString source)
    (hlow : Located.startOf source.utf8ByteSize (xs ++ ys) ≤ c.offset)
    (hhigh : c.offset < Located.startOf source.utf8ByteSize ys) : c ∈ xs := by
  have hruns := Located.runs_ofString source
  rw [hsource] at hruns hc
  obtain ⟨hbefore, hrest⟩ := hruns.of_append
  obtain ⟨_, hys⟩ := hrest.of_append
  rw [hrest.startOf_eq] at hlow
  rw [hys.startOf_eq] at hhigh
  rcases List.mem_append.1 hc with hc | hc
  · have := (hbefore.offset_mem hc).2
    have := c.offset_lt_stop
    omega
  · rcases List.mem_append.1 hc with hc | hc
    · exact hc
    · have := (hys.offset_mem hc).1
      omega

/-- A part of the source ends as many bytes after its start as it has. -/
theorem startOf_add_size (hsource : Located.ofString source = before ++ (xs ++ ys)) :
    Located.startOf source.utf8ByteSize (xs ++ ys) + Located.size xs =
      Located.startOf source.utf8ByteSize ys := by
  have hruns := Located.runs_ofString source
  rw [hsource] at hruns
  have hrest := hruns.of_append.2
  rw [hrest.startOf_eq, hrest.of_append.2.startOf_eq]

theorem startOf_le_startOf (hsource : Located.ofString source = before ++ (xs ++ ys)) :
    Located.startOf source.utf8ByteSize (xs ++ ys) ≤ Located.startOf source.utf8ByteSize ys :=
  startOf_add_size hsource ▸ Nat.le_add_right _ _

theorem tiles_nil (low : Nat) : Tiles source low low [] where
  within := by simp
  ordered := .nil
  filled c _ hlow hhigh := by omega

/-- Filler in front of a tiling. -/
theorem Tiles.skip {high : Nat} {nodes : List Node}
    (h : Tiles source (Located.startOf source.utf8ByteSize ys) high nodes)
    (hsource : Located.ofString source = before ++ (xs ++ ys)) (hgap : ∀ c ∈ xs, Event.IsGap c) :
    Tiles source (Located.startOf source.utf8ByteSize (xs ++ ys)) high nodes where
  within n hn := ⟨(startOf_le_startOf hsource).trans (h.within n hn).1, (h.within n hn).2⟩
  ordered := h.ordered
  filled c hc hlow hhigh := by
    by_cases hxs : c.offset < Located.startOf source.utf8ByteSize ys
    · exact .inr (hgap c (mem_of_between hsource hc hlow hxs))
    · exact h.filled c hc (by omega) hhigh

/-- A node in front of a tiling. -/
theorem Tiles.cons {high : Nat} {node : Node} {nodes : List Node}
    (h : Tiles source (Located.startOf source.utf8ByteSize ys) high nodes)
    (hsource : Located.ofString source = before ++ (xs ++ ys))
    (hspan : node.span = ⟨Located.startOf source.utf8ByteSize (xs ++ ys),
      Located.startOf source.utf8ByteSize ys⟩)
    (hhigh : Located.startOf source.utf8ByteSize ys ≤ high) :
    Tiles source (Located.startOf source.utf8ByteSize (xs ++ ys)) high (node :: nodes) where
  within n hn := by
    rcases List.mem_cons.1 hn with rfl | hn
    · rw [hspan]
      exact ⟨le_rfl, hhigh⟩
    · exact ⟨(startOf_le_startOf hsource).trans (h.within n hn).1, (h.within n hn).2⟩
  ordered := by
    refine List.pairwise_cons.2 ⟨fun n hn => ?_, h.ordered⟩
    rw [hspan]
    exact (h.within n hn).1
  filled c hc hlow hhigh := by
    by_cases hxs : c.offset < Located.startOf source.utf8ByteSize ys
    · refine .inl ⟨node, List.mem_cons_self, ?_⟩
      rw [hspan]
      exact ⟨hlow, hxs⟩
    · rcases h.filled c hc (by omega) hhigh with ⟨n, hn, hin⟩ | hgap
      · exact .inl ⟨n, List.mem_cons_of_mem _ hn, hin⟩
      · exact .inr hgap

end Tiling

/-! ## Every node of a reading -/

theorem Text.isBlank_of_isSpace {c : Char} (h : Text.isSpace c = true) : Text.isBlank c = true := by
  simp only [Text.isSpace, Bool.or_eq_true, beq_iff_eq] at h
  rcases h with (((rfl | rfl) | rfl) | rfl) | rfl <;> decide

/-- The block of a node: an opening brace within its span, a closing brace at the end of its span,
and between the two a tiling by the nodes of the block. -/
def IsBlock (source : String) (span : Span) (body : List Node) : Prop :=
  ∃ opening closing, opening ∈ Located.ofString source ∧ opening.char = '{' ∧
    closing ∈ Located.ofString source ∧ closing.char = '}' ∧
    span.start ≤ opening.offset ∧ closing.stop = span.stop ∧
    Tiles source opening.stop closing.offset body

/-- What holds of every node of a sheet. -/
structure Node.Placed (source : String) (node : Node) : Prop where
  nonempty : node.span.start < node.span.stop
  stop_le : node.span.stop ≤ source.utf8ByteSize
  start_cut : Located.IsCut (Located.ofString source) source.utf8ByteSize node.span.start
  stop_cut : Located.IsCut (Located.ofString source) source.utf8ByteSize node.span.stop
  block : ∀ body, node.body? = some body → IsBlock source node.span body
  excerpt : ∀ e, node.excerpt? = some e →
    Excerpt.IsFrom source node.span.start node.span.stop e

section Reading

variable {source : String} {before : List Located}

/-- A node whose span is a part of the source. -/
theorem Node.placed_of_span {node : Node} {text rest : List Located}
    (hsource : Located.ofString source = before ++ (text ++ rest)) (hne : text ≠ [])
    (hspan : node.span = ⟨Located.startOf source.utf8ByteSize (text ++ rest),
      Located.startOf source.utf8ByteSize rest⟩)
    (hblock : ∀ body, node.body? = some body → IsBlock source node.span body)
    (hexcerpt : ∀ e, node.excerpt? = some e →
      Excerpt.IsFrom source node.span.start node.span.stop e) : node.Placed source := by
  have hsize := startOf_add_size hsource
  have hpos := Located.size_pos hne
  have hsub : text ++ rest ⊆ Located.ofString source := by
    rw [hsource]
    exact List.subset_append_right _ _
  have hstop : Located.startOf source.utf8ByteSize rest ≤ source.utf8ByteSize := by
    have hruns := Located.runs_ofString source
    rw [hsource, ← List.append_assoc] at hruns
    have hrest := hruns.of_append.2
    rw [hrest.startOf_eq]
    exact hrest.le
  refine ⟨?_, ?_, ?_, ?_, hblock, hexcerpt⟩
  · rw [hspan]
    simp only
    omega
  · rwa [hspan]
  · rw [hspan]
    exact Located.isCut_startOf hsub
  · rw [hspan]
    exact Located.isCut_startOf fun c hc => hsub (List.mem_append_right _ hc)

theorem body?_of_leaf {node : Node} {c : Located} {rest next : List Located} {size : Nat}
    (h : Event.ofStart size c rest = .ok (.leaf node, next)) : node.body? = none := by
  unfold Event.ofStart at h
  split at h
  · obtain ⟨_, _, _, _, hcases⟩ := Event.ofAtRule_cases h
    rcases hcases with ⟨_, _, hnode⟩ |
      ⟨_, _, _, ⟨_, _, hnode⟩ | ⟨_, _, hnode⟩ | ⟨_, _, hnode⟩⟩ <;> simp at hnode <;>
        subst hnode <;> rfl
  · split at h
    · unfold Event.ofComment at h
      split at h
      · simp at h
      · simp at h
        obtain ⟨rfl, _⟩ := h
        rfl
    · obtain ⟨_, _, hcases⟩ := Event.ofStatement_cases h
      rcases hcases with ⟨_, _, _, _, _, _, _, hnode⟩ | ⟨_, _, _, _, _, hnode⟩
      · simp at hnode
      · simp at hnode
        subst hnode
        rfl

@[simp] theorem Head.body?_node (span : Span) (body : List Node) (head : Head) :
    (head.node span body).body? = some body := by
  cases head <;> rfl

/-- A node with a block takes everything from its first character to the closing brace. -/
theorem Head.node_placed {text taken rest : List Located} {opening closing : Located}
    {head : Head} {body : List Node}
    (hsource : Located.ofString source =
      before ++ ((text ++ opening :: taken ++ [closing]) ++ rest))
    (hopening : opening.char = '{') (hclosing : closing.char = '}')
    (htiles : Tiles source (Located.startOf source.utf8ByteSize (taken ++ closing :: rest))
      closing.offset body)
    (hexcerpt : Excerpt.IsFrom source (Located.startOf source.utf8ByteSize
      ((text ++ opening :: taken ++ [closing]) ++ rest)) opening.offset head.excerpt) :
    let node := head.node ⟨Located.startOf source.utf8ByteSize
      ((text ++ opening :: taken ++ [closing]) ++ rest), closing.stop⟩ body
    node.span = ⟨Located.startOf source.utf8ByteSize
      ((text ++ opening :: taken ++ [closing]) ++ rest),
      Located.startOf source.utf8ByteSize rest⟩ ∧ node.Placed source := by
  intro node
  have hopen : Located.ofString source =
      (before ++ text) ++ opening :: (taken ++ closing :: rest) := by
    simp [hsource]
  have hclose : Located.ofString source =
      (before ++ text ++ opening :: taken) ++ closing :: rest := by
    simp [hsource]
  have hinner := (Event.runs_of_source hopen).2.startOf_eq
  have houter := (Event.runs_of_source hclose).2.startOf_eq
  have hspan : node.span = ⟨Located.startOf source.utf8ByteSize
      ((text ++ opening :: taken ++ [closing]) ++ rest),
      Located.startOf source.utf8ByteSize rest⟩ := by
    rw [Head.span_node, houter]
  refine ⟨hspan, Node.placed_of_span hsource (by simp) hspan ?_ ?_⟩
  · intro inside hinside
    obtain rfl : body = inside := by simpa [node] using hinside
    refine ⟨opening, closing, by simp [hopen], hopening, by simp [hclose], hclosing, ?_, ?_, ?_⟩
    · rw [Head.span_node]
      exact hexcerpt.low_le_stop.trans hexcerpt.stop_le
    · rw [Head.span_node]
    · rwa [← hinner]
  · intro e he
    obtain rfl : head.excerpt = e := by simpa [node] using he
    rw [Head.span_node]
    have hbraces : opening.offset ≤ closing.stop := by
      have hruns := Event.runs_of_source hopen
      exact (hruns.offset_mem (c := closing) (by simp)).1.trans
        (Nat.le_of_lt closing.offset_lt_stop)
    exact hexcerpt.mono le_rfl hbraces

/-- The nodes of a reading tile what is read, and every node at any depth is placed. -/
theorem reads_placed {cs after : List Located} {nodes : List Node}
    (hsource : Located.ofString source = before ++ cs)
    (h : Event.Reads source.utf8ByteSize cs nodes after) :
    (∃ taken, cs = taken ++ after) ∧
      Tiles source (Located.startOf source.utf8ByteSize cs)
        (Located.startOf source.utf8ByteSize after) nodes ∧
      ∀ node : Node, node.Occurs nodes → node.Placed source := by
  induction h generalizing before with
  | finish => exact ⟨⟨[], rfl⟩, tiles_nil _, fun node hn => absurd hn node.not_occurs_nil⟩
  | close => exact ⟨⟨[], rfl⟩, tiles_nil _, fun node hn => absurd hn node.not_occurs_nil⟩
  | @filler c rest after nodes hfill _ ih =>
    have hsource' : Located.ofString source = (before ++ [c]) ++ rest := by simp [hsource]
    obtain ⟨⟨taken, rfl⟩, htiles, hplaced⟩ := ih hsource'
    have hskip : Located.ofString source = before ++ ([c] ++ (taken ++ after)) := hsource
    have hgap : ∀ d ∈ [c], Event.IsGap d := by
      intro d hd
      obtain rfl := List.mem_singleton.1 hd
      exact hfill.imp_left Text.isBlank_of_isSpace
    exact ⟨⟨c :: taken, rfl⟩, htiles.skip hskip hgap, hplaced⟩
  | @leaf c rest next after node nodes _ _ hstart _ ih =>
    obtain ⟨⟨text, gap, hsplit, hne, hgap, hspan⟩, hexcerpt⟩ := Event.ofStart_leaf hsource hstart
    rw [hsplit] at hsource hspan ⊢
    have hnext : Located.ofString source = (before ++ text ++ gap) ++ next := by simp [hsource]
    obtain ⟨⟨taken, rfl⟩, htiles, hplaced⟩ := ih hnext
    rw [startOf_add_size hsource] at hspan
    have hgapSource : Located.ofString source = (before ++ text) ++ (gap ++ (taken ++ after)) := by
      simp [hsource]
    have hhigh := (startOf_le_startOf hgapSource).trans (startOf_le_startOf hnext)
    refine ⟨⟨text ++ gap ++ taken, by simp⟩,
      (htiles.skip hgapSource hgap).cons hsource hspan hhigh, ?_⟩
    intro n hn
    have hleaf := body?_of_leaf hstart
    rcases Node.occurs_cons.1 hn with rfl | hn | hn
    · refine Node.placed_of_span hsource hne hspan ?_ hexcerpt
      intro body hbody
      simp [hleaf] at hbody
    · rw [hleaf] at hn
      exact absurd hn n.not_occurs_nil
    · exact hplaced n hn
  | @block c close rest inner outer after start brace head body nodes _ _ hstart _ hclose _ ihbody
      ih =>
    obtain ⟨⟨text, b, hsplit, hb, rfl⟩, rfl, hexcerpt⟩ := Event.ofStart_opens hsource hstart
    rw [hsplit] at hsource hexcerpt ⊢
    have hinner : Located.ofString source = (before ++ text ++ [b]) ++ inner := by simp [hsource]
    obtain ⟨⟨taken, rfl⟩, hbodyTiles, hbodyPlaced⟩ := ihbody hinner
    have houter : Located.ofString source = (before ++ text ++ b :: taken ++ [close]) ++ outer := by
      simp [hsource]
    obtain ⟨⟨taken', rfl⟩, htiles, hplaced⟩ := ih houter
    have hnode : text ++ b :: (taken ++ close :: (taken' ++ after)) =
        (text ++ b :: taken ++ [close]) ++ (taken' ++ after) := by simp
    rw [hnode] at hsource hexcerpt ⊢
    obtain ⟨hspan, hthis⟩ := Head.node_placed hsource hb hclose hbodyTiles hexcerpt
    refine ⟨⟨text ++ b :: taken ++ [close] ++ taken', by simp⟩,
      htiles.cons hsource hspan (startOf_le_startOf houter), ?_⟩
    intro n hn
    rcases Node.occurs_cons.1 hn with rfl | hn | hn
    · exact hthis
    · rw [Head.body?_node] at hn
      exact hbodyPlaced n hn
    · exact hplaced n hn

theorem parse_placed {sheet : Sheet} (h : Sheet.parse source = .ok sheet) :
    Tiles source 0 source.utf8ByteSize sheet.nodes ∧
      ∀ node : Node, node.Occurs sheet.nodes → node.Placed source := by
  obtain ⟨_, hreads⟩ := Event.parse_reads h
  have hsource : Located.ofString source = [] ++ Located.ofString source := rfl
  obtain ⟨_, htiles, hplaced⟩ := reads_placed hsource hreads
  rw [(Located.runs_ofString source).startOf_eq] at htiles
  exact ⟨htiles, hplaced⟩

end Reading

/-! ## Walks -/

def Item.span : Item → Span
  | .rule head => head.span
  | .atRule head => head.span
  | .declaration decl => decl.span
  | .comment c => c.span

/-- The node without its block. -/
def Node.item : Node → Item
  | .rule head _ => .rule head
  | .atRule head _ => .atRule head
  | .atStatement head => .atRule head
  | .declaration decl => .declaration decl
  | .comment c => .comment c

@[simp] theorem Node.span_item (node : Node) : node.item.span = node.span := by
  cases node <;> rfl

/-- What a node with a block is to the nodes in it. -/
theorem Node.items_eq (parent : Parent) (node : Node) :
    ∃ inner, node.items parent =
      (parent, node.item) :: Node.itemsOf inner (node.body?.getD []) := by
  cases node with
  | rule head body => exact ⟨.rule head, by rw [Node.items]; rfl⟩
  | atRule head body => exact ⟨.atRule head, by rw [Node.items]; rfl⟩
  | atStatement head => exact ⟨parent, by rw [Node.items]; rfl⟩
  | declaration decl => exact ⟨parent, by rw [Node.items]; rfl⟩
  | comment c => exact ⟨parent, by rw [Node.items]; rfl⟩

/-- The nodes that a walk meets are the nodes of the tree. -/
theorem Node.mem_itemsOf {parent : Parent} {nodes : List Node} {item : Item} :
    (∃ p, (p, item) ∈ Node.itemsOf parent nodes) ↔ ∃ n : Node, n.Occurs nodes ∧ n.item = item := by
  induction nodes using Node.forest_induction generalizing parent with
  | nil => simp [Node.itemsOf, Node.not_occurs_nil]
  | cons node nodes ihbody ih =>
    obtain ⟨inner, hitems⟩ := node.items_eq parent
    rw [Node.itemsOf, hitems]
    simp only [List.cons_append, List.mem_cons, List.mem_append, exists_or, Node.occurs_cons,
      or_and_right, ihbody, ih, Prod.mk.injEq, exists_eq_left]
    simp [eq_comm]

theorem Tiles.tail {source : String} {low high : Nat} {node : Node} {nodes : List Node}
    (h : Tiles source low high (node :: nodes)) (hnode : node.span.start < node.span.stop) :
    Tiles source node.span.stop high nodes where
  within n hn :=
    ⟨(List.pairwise_cons.1 h.ordered).1 n hn, (h.within n (List.mem_cons_of_mem _ hn)).2⟩
  ordered := (List.pairwise_cons.1 h.ordered).2
  filled c hc hlow hhigh := by
    have := (h.within node List.mem_cons_self).1
    rcases h.filled c hc (by omega) hhigh with ⟨n, hn, hin⟩ | hgap
    · rcases List.mem_cons.1 hn with rfl | hn
      · omega
      · exact .inl ⟨n, hn, hin⟩
    · exact .inr hgap

/-- What stands in a node starts after it does and before it ends. -/
theorem Node.Placed.tiles_body {source : String} {node : Node} (h : node.Placed source) :
    ∃ low high, node.span.start < low ∧ high ≤ node.span.stop ∧
      Tiles source low high (node.body?.getD []) := by
  cases hbody : node.body? with
  | none => exact ⟨node.span.stop, node.span.stop, h.nonempty, le_rfl, tiles_nil _⟩
  | some body =>
    obtain ⟨opening, closing, _, _, _, _, hstart, hstop, htiles⟩ := h.block body hbody
    have := opening.offset_lt_stop
    have := closing.offset_lt_stop
    exact ⟨opening.stop, closing.offset, by omega, by omega, htiles⟩

/-- A walk meets nodes in the order in which they start. -/
theorem Node.itemsOf_increasing {source : String} {low high : Nat} {nodes : List Node}
    (parent : Parent) (htiles : Tiles source low high nodes)
    (hplaced : ∀ n : Node, n.Occurs nodes → n.Placed source) :
    (Node.itemsOf parent nodes).Pairwise (fun x y => x.2.span.start < y.2.span.start) ∧
      ∀ x ∈ Node.itemsOf parent nodes, low ≤ x.2.span.start ∧ x.2.span.start < high := by
  induction nodes using Node.forest_induction generalizing parent low high with
  | nil => simp [Node.itemsOf]
  | cons node nodes ihbody ih =>
    have hnode := hplaced node (Node.occurs_cons.2 (.inl rfl))
    obtain ⟨inner, hitems⟩ := node.items_eq parent
    obtain ⟨bodyLow, bodyHigh, hlow, hhigh, hbody⟩ := hnode.tiles_body
    obtain ⟨hbodyOrder, hbodyRange⟩ := ihbody inner hbody
      fun n hn => hplaced n (Node.occurs_cons.2 (.inr (.inl hn)))
    obtain ⟨horder, hrange⟩ := ih parent (htiles.tail hnode.nonempty)
      fun n hn => hplaced n (Node.occurs_cons.2 (.inr (.inr hn)))
    have hwithin := htiles.within node List.mem_cons_self
    have hstart := hnode.nonempty
    rw [Node.itemsOf, hitems, List.cons_append]
    constructor
    · refine List.pairwise_cons.2 ⟨fun x hx => ?_, List.pairwise_append.2
        ⟨hbodyOrder, horder, fun x hx y hy => ?_⟩⟩
      · simp only [Node.span_item]
        rcases List.mem_append.1 hx with hx | hx
        · have := hbodyRange x hx
          omega
        · have := hrange x hx
          omega
      · have := hbodyRange x hx
        have := hrange y hy
        omega
    · intro x hx
      rcases List.mem_cons.1 hx with rfl | hx
      · simp only [Node.span_item]
        omega
      · rcases List.mem_append.1 hx with hx | hx
        · have := hbodyRange x hx
          omega
        · have := hrange x hx
          omega

/-- The walk visits exactly the nodes of one kind that occur in the sheet, in the order in which
they start, and so each of them once. -/
structure VisitsOnce {α : Type} (sheet : Sheet) (kind : α → Item) (visited : List α) : Prop where
  complete : ∀ a, a ∈ visited ↔ ∃ n : Node, n.Occurs sheet.nodes ∧ n.item = kind a
  increasing : visited.Pairwise fun a b => (kind a).span.start < (kind b).span.start

/-- A walk that picks the items of one kind. -/
theorem visitsOnce_of_pick {α β : Type} {source : String} {sheet : Sheet}
    {pick : Parent × Item → Option β} {thing : β → α} {kind : α → Item}
    (h : Sheet.parse source = .ok sheet)
    (hpick : ∀ x a, (∃ b, pick x = some b ∧ thing b = a) ↔ x.2 = kind a) :
    VisitsOnce sheet kind ((sheet.items.filterMap pick).map thing) where
  complete a := by
    have hitems : (∃ p, (p, kind a) ∈ sheet.items) ↔ _ := Node.mem_itemsOf
    rw [← hitems]
    simp only [List.mem_map, List.mem_filterMap]
    constructor
    · rintro ⟨b, ⟨x, hx, hb⟩, ha⟩
      have hkind := (hpick x a).1 ⟨b, hb, ha⟩
      exact ⟨x.1, hkind ▸ hx⟩
    · rintro ⟨p, hp⟩
      obtain ⟨b, hb, ha⟩ := (hpick (p, kind a) a).2 rfl
      exact ⟨b, ⟨_, hp, hb⟩, ha⟩
  increasing := by
    obtain ⟨htiles, hplaced⟩ := parse_placed h
    obtain ⟨horder, _⟩ := Node.itemsOf_increasing .root htiles hplaced
    rw [List.pairwise_map, List.pairwise_filterMap]
    refine horder.imp ?_
    intro x y hlt b hb b' hb'
    rwa [← (hpick x _).1 ⟨b, hb, rfl⟩, ← (hpick y _).1 ⟨b', hb', rfl⟩]

section Walks

variable {source : String} {sheet : Sheet}

theorem visitsOnce_declarations (h : Sheet.parse source = .ok sheet) :
    VisitsOnce sheet .declaration (sheet.declarations.map Prod.fst) := by
  refine visitsOnce_of_pick h ?_
  rintro ⟨p, item⟩ decl
  cases item <;> simp

theorem visitsOnce_rules (h : Sheet.parse source = .ok sheet) :
    VisitsOnce sheet .rule sheet.rules := by
  rw [← List.map_id sheet.rules]
  refine visitsOnce_of_pick h ?_
  rintro ⟨p, item⟩ head
  cases item <;> simp

theorem visitsOnce_atRules (h : Sheet.parse source = .ok sheet) :
    VisitsOnce sheet .atRule sheet.atRules := by
  rw [← List.map_id sheet.atRules]
  refine visitsOnce_of_pick h ?_
  rintro ⟨p, item⟩ head
  cases item <;> simp

end Walks

/-! ## The tree -/

/-- A rule with comments in its selector and its value, a string that holds a comment mark,
characters of two bytes and `!important`. -/
def sampleSource : String :=
  "é/*;*/:b \x7b c: \"/*\"/**/é!important\x7d"

def sampleDeclaration : Declaration :=
  ⟨⟨12, 35⟩, "c", ⟨[⟨15, '"'⟩, ⟨16, '/'⟩, ⟨17, '*'⟩, ⟨18, '"'⟩, ⟨23, 'é'⟩], 25⟩, true⟩

theorem parse_sampleSource : ∃ sheet, Sheet.parse sampleSource = .ok sheet ∧
    sheet.declarations.map Prod.fst = [sampleDeclaration] := by
  have h : ((Sheet.parse sampleSource).toOption.map fun sheet => sheet.declarations.map Prod.fst) =
      some [sampleDeclaration] := by decide +kernel
  cases hparse : Sheet.parse sampleSource with
  | error e => simp [hparse, Except.toOption] at h
  | ok sheet => exact ⟨sheet, rfl, by simpa [hparse, Except.toOption] using h⟩

end SheetPolicy
