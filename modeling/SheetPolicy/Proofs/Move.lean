import Mathlib
import SheetPolicy.Proofs.Takes

/-!
Moving a text. How a text is read hangs on its characters alone and not on where they stand, so the
reading of a text that stands elsewhere is the same one with every offset moved
(`Event.Takes.move`, `Event.Builds.move`).
-/

namespace SheetPolicy

/-! ## Characters, units and excerpts -/

namespace Located

/-- The character at another place. -/
def move (f : Nat → Nat) (c : Located) : Located :=
  ⟨f c.offset, c.char⟩

variable (f : Nat → Nat)

@[simp] theorem char_move (c : Located) : (c.move f).char = c.char := rfl

@[simp] theorem offset_move (c : Located) : (c.move f).offset = f c.offset := rfl

@[simp] theorem char_comp_move : Located.char ∘ move f = Located.char := rfl

@[simp] theorem headChar_move (cs : List Located) : headChar (cs.map (move f)) = headChar cs := by
  cases cs <;> rfl

@[simp] theorem startOf_move (size : Nat) (cs : List Located) :
    startOf (f size) (cs.map (move f)) = f (startOf size cs) := by
  cases cs <;> rfl

@[simp] theorem text_move (cs : List Located) : text (cs.map (move f)) = text cs := by
  simp [text]

@[simp] theorem size_move (cs : List Located) : size (cs.map (move f)) = size cs :=
  size_eq_of_map_char (by simp)

/-- Placing a text further on moves it. -/
theorem place_add (start n : Nat) (cs : List Char) :
    place (start + n) cs = (place start cs).map (move (· + n)) := by
  induction cs generalizing start with
  | nil => rfl
  | cons c cs ih =>
    rw [place, place, List.map_cons, ← ih, Nat.add_right_comm]
    rfl

theorem Rising.move {f : Nat → Nat} (hf : StrictMono f) {size : Nat} {cs : List Located}
    (h : Rising size cs) : Rising (f size) (cs.map (Located.move f)) where
  ordered := List.pairwise_map.2 (h.ordered.imp fun hlt => hf hlt)
  lt c hc := by
    obtain ⟨d, hd, rfl⟩ := List.mem_map.1 hc
    exact hf (h.lt d hd)

end Located

namespace Lexeme

theorem closeComment_move (f : Nat → Nat) {cs body after : List Located}
    (h : closeComment cs = some (body, after)) :
    closeComment (cs.map (Located.move f)) =
      some (body.map (Located.move f), after.map (Located.move f)) := by
  obtain ⟨inner, hinner, hfree⟩ := closeComment_chars h
  rw [← closeComment_append h, List.map_append]
  exact closeComment_complete hfree (by simpa using hinner) _

end Lexeme

theorem Prelude.Skips.move (f : Nat → Nat) {depth : Nat} {cs stop : List Located}
    (h : Skips depth cs stop) :
    Skips depth (cs.map (Located.move f)) (stop.map (Located.move f)) := by
  have hopens : ∀ (c : Char) (rest : List Located),
      opensInterpolation c (rest.map (Located.move f)) = opensInterpolation c rest := by
    intro c rest
    cases rest <;> rfl
  induction h with
  | finish => exact .finish
  | terminator hterm => exact .terminator hterm
  | @interpolation depth c rest stop hend hinter _ ih =>
    have hafter : afterInterpolation (rest.map (Located.move f)) =
        (afterInterpolation rest).map (Located.move f) := by
      rw [afterInterpolation, afterInterpolation, List.dropWhile_map, ← List.map_tail]
      rfl
    refine .interpolation hend (by simpa [hopens] using hinter) ?_
    rw [hafter]
    exact ih
  | unit hend hinter hunit _ ih =>
    rw [List.map_cons, List.map_append]
    refine .unit hend ?_ (by simpa using hunit) ih
    rw [← List.map_append, Located.char_move, hopens]
    exact hinter

namespace Excerpt

def move (f : Nat → Nat) (e : Excerpt) : Excerpt :=
  ⟨e.chars.map (Located.move f), f e.stop⟩

@[simp] theorem text_move (f : Nat → Nat) (e : Excerpt) : (e.move f).text = e.text :=
  Located.text_move f e.chars

theorem Retains.move {f : Nat → Nat} (hf : StrictMono f) {stop : Nat} {cs kept : List Located}
    (h : Retains stop cs kept) :
    Retains (f stop) (cs.map (Located.move f)) (kept.map (Located.move f)) := by
  induction h with
  | nil => exact .nil
  | past hpast => exact .past (hf.monotone hpast)
  | @unit kind c body rest kept hlt hunit _ ih =>
    have hkept : (((⟨kind, c :: body⟩ : Lexeme).kept.filter fun d => d.offset < stop).map
        (Located.move f)) = (⟨kind, (c :: body).map (Located.move f)⟩ : Lexeme).kept.filter
          fun d => d.offset < f stop := by
      unfold Lexeme.kept
      split
      · rfl
      · simp only [List.filter_map, Function.comp_def, Located.offset_move, hf.lt_iff_lt]
    rw [List.map_cons, List.map_append, List.map_append, hkept]
    exact .unit (hf hlt) (by simpa using hunit) ih

theorem trim_move (f : Nat → Nat) (kept : List Located) (stop : Nat) :
    trim (kept.map (Located.move f)) (f stop) = (trim kept stop).move f := by
  have hright : ∀ cs : List Located,
      Text.dropRightWhile (fun c => Text.isBlank c.char) (cs.map (Located.move f)) =
        (Text.dropRightWhile (fun c => Text.isBlank c.char) cs).map (Located.move f) := by
    intro cs
    simp [Text.dropRightWhile, ← List.map_reverse, List.dropWhile_map, Function.comp_def]
  simp only [trim, move, List.dropWhile_map, Function.comp_def, Located.char_move, hright,
    List.length_map, ← List.map_drop, Located.startOf_move]

theorem cut_move {f : Nat → Nat} (hf : StrictMono f) {cs : List Located} {stop : Nat} {e : Excerpt}
    (h : cut cs stop = .ok e) : cut (cs.map (Located.move f)) (f stop) = .ok (e.move f) := by
  rw [cut] at h ⊢
  cases hkeep : keep stop cs with
  | error err => simp [hkeep, Except.map] at h
  | ok kept =>
    obtain rfl : trim kept stop = e := by simpa [hkeep, Except.map] using h
    rw [keep_eq_ok_iff.2 ((keep_eq_ok_iff.1 hkeep).move hf), ← trim_move]
    rfl

theorem splitImportant_move (f : Nat → Nat) (e : Excerpt) :
    (e.move f).splitImportant = (e.splitImportant.1.move f, e.splitImportant.2) := by
  let p : Located → Bool := fun c => c.char ≠ '!'
  have htake : (e.chars.map (Located.move f)).reverse.takeWhile p =
      (e.chars.reverse.takeWhile p).map (Located.move f) := by
    rw [← List.map_reverse, List.takeWhile_map]
    rfl
  have hdrop : (e.chars.map (Located.move f)).reverse.dropWhile p =
      (e.chars.reverse.dropWhile p).map (Located.move f) := by
    rw [← List.map_reverse, List.dropWhile_map]
    rfl
  rw [splitImportant, splitImportant, List.span_eq_takeWhile_dropWhile,
    List.span_eq_takeWhile_dropWhile, move, htake, hdrop]
  cases e.chars.reverse.dropWhile p with
  | nil => rfl
  | cons bang before =>
    simp only [List.map_cons, ← List.map_reverse, Located.text_move]
    split
    · rw [← trim_move]
      rfl
    · rfl

end Excerpt

/-! ## Trees -/

/-- A change to the nodes of a tree that keeps its shape and its names. -/
structure Retouch where
  span : Span → Span
  excerpt : Excerpt → Excerpt
  comment : Comment → Comment

namespace Retouch

variable (r : Retouch)

def styleRule (head : StyleRule) : StyleRule :=
  ⟨r.span head.span, r.excerpt head.selector⟩

def atRule (head : AtRule) : AtRule :=
  ⟨r.span head.span, head.name, r.excerpt head.params⟩

def declaration (decl : Declaration) : Declaration :=
  ⟨r.span decl.span, decl.prop, r.excerpt decl.value, decl.important⟩

mutual

def node : Node → Node
  | .rule head body => .rule (r.styleRule head) (nodes body)
  | .atRule head body => .atRule (r.atRule head) (nodes body)
  | .atStatement head => .atStatement (r.atRule head)
  | .declaration decl => .declaration (r.declaration decl)
  | .comment c => .comment (r.comment c)

def nodes : List Node → List Node
  | [] => []
  | n :: rest => node n :: nodes rest

end

/-- Every offset moved. -/
def move (f : Nat → Nat) : Retouch where
  span s := ⟨f s.start, f s.stop⟩
  excerpt e := e.move f
  comment c := ⟨⟨f c.span.start, f c.span.stop⟩, c.text⟩

end Retouch

def Head.move (f : Nat → Nat) : Head → Head
  | .rule selector => .rule (selector.move f)
  | .atRule name params => .atRule name (params.move f)

theorem Head.node_move (f : Nat → Nat) (span : Span) (body : List Node) (head : Head) :
    (Retouch.move f).node (head.node span body) =
      (head.move f).node ⟨f span.start, f span.stop⟩ ((Retouch.move f).nodes body) := by
  cases head <;> rfl

/-! ## Statements -/

/-- The place after each of the characters is moved along with the character. -/
def Located.Carries (f : Nat → Nat) (cs : List Located) : Prop :=
  ∀ c ∈ cs, (c.move f).stop = f c.stop

namespace Event

def move (f : Nat → Nat) : Event → Event
  | .opens start brace head => .opens (f start) (f brace) (head.move f)
  | .closes stop => .closes (f stop)
  | .leaf node => .leaf ((Retouch.move f).node node)

variable {f : Nat → Nat} {size : Nat} {cs next : List Located} {e : Event}

theorem atRuleEnd_move {start : Nat} {name : String} {params : Excerpt} {stop : List Located}
    (h : atRuleEnd size start name params stop = (e, next))
    (hstop : ∀ t, t :: next = stop → (t.move f).stop = f t.stop) :
    atRuleEnd (f size) (f start) name (params.move f) (stop.map (Located.move f)) =
      (e.move f, next.map (Located.move f)) := by
  cases stop with
  | nil =>
    obtain ⟨rfl, rfl⟩ := Prod.mk.inj h
    rfl
  | cons t after =>
    rw [atRuleEnd] at h
    rw [List.map_cons, atRuleEnd, Located.char_move]
    split at h
    · next ht =>
      obtain ⟨rfl, rfl⟩ := Prod.mk.inj h
      rw [if_pos ht]
      rfl
    · next ht =>
      split at h
      · next hsemi =>
        obtain ⟨rfl, rfl⟩ := Prod.mk.inj h
        rw [if_neg ht, if_pos hsemi, hstop t rfl]
        rfl
      · next hsemi =>
        obtain ⟨rfl, rfl⟩ := Prod.mk.inj h
        rw [if_neg ht, if_neg hsemi]
        rfl

theorem startsStatement_move {cs : List Located} (h : StartsStatement cs) :
    StartsStatement (cs.map (Located.move f)) := by
  cases cs with
  | nil => exact h
  | cons c rest => simpa [StartsStatement] using h

theorem afterSemicolon_move (stop : List Located) :
    afterSemicolon (stop.map (Located.move f)) = (afterSemicolon stop).map (Located.move f) := by
  cases stop with
  | nil => rfl
  | cons t after =>
    by_cases ht : t.char = ';' <;> simp [afterSemicolon, ht]

theorem Divides.move (hf : StrictMono f) {taken tail before after gap : List Located} {colon : Located}
    {prop value : Excerpt} (h : Divides size taken tail before colon after gap prop value) :
    Divides (f size) (taken.map (Located.move f)) (tail.map (Located.move f))
      (before.map (Located.move f)) (colon.move f) (after.map (Located.move f))
      (gap.map (Located.move f)) (prop.move f) (value.move f) where
  taken_eq := by simp [h.taken_eq]
  colon_char := h.colon_char
  before_free := by simpa using h.before_free
  gap_blank := by simpa using h.gap_blank
  tight := by
    intro c hc
    rw [← List.map_cons, List.getLast?_map, Option.map_eq_some_iff] at hc
    obtain ⟨d, hd, rfl⟩ := hc
    exact h.tight d hd
  prop_cut := by
    rw [← List.map_append]
    exact Excerpt.cut_move hf h.prop_cut
  value_cut := by
    rw [← List.map_append, ← List.map_append, Located.startOf_move]
    exact Excerpt.cut_move hf h.value_cut

/-- A statement that stands elsewhere has the same form. -/
theorem Takes.move (hf : StrictMono f) {taken : List Located} (h : Takes size (taken ++ next) e next)
    (htaken : Located.Carries f taken) :
    Takes (f size) ((taken ++ next).map (Located.move f)) (e.move f) (next.map (Located.move f)) := by
  generalize hcs : taken ++ next = cs at h
  cases h with
  | @comment c star body _ hc hstar hclose =>
    have hclose' := Lexeme.closeComment_move f hclose
    rw [List.map_append] at hclose'
    have htakes := @Takes.comment (f size) (c.move f) (star.move f) _ _ hc hstar hclose'
    rw [Located.startOf_move, List.length_map, ← List.map_take, Located.text_move] at htakes
    rw [List.map_cons, List.map_cons, List.map_append]
    exact htakes
  | @atRule c name text stop _ params _ hc hname hhead hstop hparams hend =>
    have hstop' := (Prelude.skip_eq_ok_iff.1 hstop).move f
    have hparams' := Excerpt.cut_move hf hparams
    have hend' := atRuleEnd_move hend fun t ht => by
      subst ht
      obtain rfl : taken = c :: (name ++ (text ++ [t])) :=
        List.append_cancel_right (hcs.trans (by simp) : _ = (c :: (name ++ (text ++ [t]))) ++ next)
      exact htaken t (by simp)
    rw [← Located.text_move f name] at hend'
    rw [← Located.startOf_move f, List.map_append] at hparams'
    rw [List.map_append] at hstop'
    rw [List.map_cons, List.map_append, List.map_append]
    refine .atRule (c := c.move f) hc (by simpa using hname) ?_ (Prelude.skip_eq_ok_iff.2 hstop')
      hparams' hend'
    rwa [← List.map_append, Located.headChar_move]
  | @rule text _ t selector hstart ht hstop hselector =>
    have hstart' := startsStatement_move (f := f) hstart
    have hstop' := Prelude.skip_eq_ok_iff.2 ((Prelude.skip_eq_ok_iff.1 hstop).move f)
    have hselector' := Excerpt.cut_move hf hselector
    rw [Event.move, ← Located.startOf_move f]
    simp only [List.map_append, List.map_cons] at hstart' hstop' hselector' ⊢
    exact .rule hstart' ht hstop' hselector'
  | @declaration text stop before after gap colon prop value hstart hopen hstop hdivides =>
    have hstop' := Prelude.skip_eq_ok_iff.2 ((Prelude.skip_eq_ok_iff.1 hstop).move f)
    have hstart' := startsStatement_move (f := f) hstart
    rw [List.map_append] at hstart' hstop'
    have htakes := Takes.declaration hstart' (by simpa using hopen) hstop' (hdivides.move hf)
    rw [← List.map_append, ← List.map_append, Located.startOf_move, Located.startOf_move,
      Excerpt.splitImportant_move, Excerpt.text_move, afterSemicolon_move] at htakes
    exact htakes

theorem startsNode_move {cs : List Located} (h : StartsNode cs) :
    StartsNode (cs.map (Located.move f)) := by
  cases cs with
  | nil => exact h
  | cons c rest => exact h

/-- A block that stands elsewhere is made of the same nodes. -/
theorem Builds.move (hf : StrictMono f) {taken after : List Located} {nodes : List Node}
    (h : Builds size (taken ++ after) nodes after) (htaken : Located.Carries f taken) :
    Builds (f size) ((taken ++ after).map (Located.move f)) ((Retouch.move f).nodes nodes)
      (after.map (Located.move f)) := by
  generalize hcs : taken ++ after = cs at h
  induction h generalizing taken with
  | finish => exact .finish
  | close hclose => exact .close hclose
  | @filler c rest after nodes hfill hrest ih =>
    obtain ⟨front, rfl⟩ := hrest.suffix
    obtain rfl : taken = c :: front := List.append_cancel_right (hcs : _ = (c :: front) ++ after)
    exact .filler hfill (ih (fun d hd => htaken d (List.mem_cons_of_mem _ hd)) rfl)
  | @leaf cs next after node nodes hstart htakes hrest ih =>
    obtain ⟨front, rfl⟩ := htakes.suffix
    obtain ⟨middle, rfl⟩ := hrest.suffix
    obtain rfl : taken = front ++ middle :=
      List.append_cancel_right (hcs.trans (List.append_assoc _ _ _).symm)
    exact .leaf (startsNode_move hstart)
      (htakes.move hf fun d hd => htaken d (List.mem_append_left _ hd))
      (ih (fun d hd => htaken d (List.mem_append_right _ hd)) rfl)
  | @block close cs inner outer after start brace head body nodes hstart htakes hbody hbrace hrest
      ihbody ih =>
    obtain ⟨front, rfl⟩ := htakes.suffix
    obtain ⟨inside, rfl⟩ := hbody.suffix
    obtain ⟨middle, rfl⟩ := hrest.suffix
    obtain rfl : taken = front ++ (inside ++ close :: middle) :=
      List.append_cancel_right (hcs.trans (by simp) :
        _ = (front ++ (inside ++ close :: middle)) ++ after)
    rw [Retouch.nodes, Head.node_move, ← htaken close (by simp)]
    exact .block (startsNode_move hstart) (htakes.move hf fun d hd => htaken d (by simp [hd]))
      (ihbody (fun d hd => htaken d (by simp [hd])) rfl) hbrace
      (ih (fun d hd => htaken d (by simp [hd])) rfl)

end Event

end SheetPolicy
