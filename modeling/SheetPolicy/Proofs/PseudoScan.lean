import Mathlib
import SheetPolicy.Selector.Event
import SheetPolicy.Proofs.Located

/-!
The pseudo-classes and pseudo-elements of a selector list, found without reading it as a tree. A
flat scan passes the text character by character, leaves out escaped characters, attribute groups
and arguments that are no selectors, and takes every name after a colon. Main statement: the walk
over the tree visits what the flat scan finds.
-/

namespace SheetPolicy.Selector

/-! ## The flat scan -/

/-- The number of characters of the name at the start. `escaped` says that a backslash stands
before it. -/
def nameLength (escaped : Bool) : List Char → Nat
  | [] => 0
  | c :: cs =>
    if escaped then 1 + nameLength false cs
    else if c = '\\' then 1 + nameLength true cs
    else if isNameChar c then 1 + nameLength false cs
    else 0

/-- The number of characters up to the bracket that closes a group, that bracket included. `depth`
counts the brackets opened inside the group, and `quote` and `escaped` say what stands before. -/
def groupLength (left right : Char) (depth : Nat) (quote : Option Char) (escaped : Bool) :
    List Char → Nat
  | [] => 0
  | c :: cs =>
    if escaped then 1 + groupLength left right depth quote false cs
    else if c = '\\' then 1 + groupLength left right depth quote true cs
    else
      match quote with
      | some q =>
        1 + groupLength left right depth (if c = q then none else some q) false cs
      | none =>
        if c = '"' ∨ c = '\'' then 1 + groupLength left right depth (some c) false cs
        else if c = left then 1 + groupLength left right (depth + 1) none false cs
        else if c = right then
          if depth = 0 then 1 else 1 + groupLength left right (depth - 1) none false cs
        else 1 + groupLength left right depth none false cs

/-- The number of characters of an argument at the start that is no list of selectors. -/
def argumentLength (name : List Located) : List Located → Nat
  | [] => 0
  | c :: cs =>
    if c.char = '(' ∧
        Text.withoutVendor (Text.lower (Located.text name)) ∉ takesSelectors then
      1 + groupLength '(' ')' 0 none false (cs.map Located.char)
    else 0

/-- The number of colons, one or two, that start with a colon before `cs`. -/
def colonCount : List Located → Nat
  | [] => 1
  | d :: _ => if d.char = ':' then 2 else 1

/-- The names after colons, each with its colons and the offset of the first, after `skip`
characters. -/
def flatScan (skip : Nat) : List Located → List (String × Nat)
  | [] => []
  | c :: cs =>
    match skip with
    | skip + 1 => flatScan skip cs
    | 0 =>
      if c.char = '\\' then flatScan 1 cs
      else if c.char = '[' then
        flatScan (groupLength '[' ']' 0 none false (cs.map Located.char)) cs
      else if c.char = ':' then
        let colons := colonCount cs
        let name := (c :: cs).drop colons
        let length := nameLength false (name.map Located.char)
        if length = 0 then flatScan 0 cs
        else
          (Located.text ((c :: cs).take (colons + length)), c.offset) ::
            flatScan (colons - 1 + length + argumentLength (name.take length) (name.drop length)) cs
      else flatScan 0 cs

/-- What the flat scan finds in a text. -/
def flatPseudos (text : String) : List (String × Nat) :=
  flatScan 0 (Located.ofString text)

theorem flatScan_eq_drop (skip : Nat) (cs : List Located) :
    flatScan skip cs = flatScan 0 (cs.drop skip) := by
  induction cs generalizing skip with
  | nil => cases skip <;> rfl
  | cons c cs ih =>
    cases skip with
    | zero => rfl
    | succ skip => exact ih skip

/-- The scan passes a character that starts neither an escape, a group nor a name. -/
theorem flatScan_pass {c : Located} (cs : List Located) (hescape : c.char ≠ '\\')
    (hgroup : c.char ≠ '[') (hcolon : c.char ≠ ':') : flatScan 0 (c :: cs) = flatScan 0 cs := by
  rw [flatScan]
  simp only [hescape, hgroup, hcolon, if_false]

/-- The same for a class of characters that has none of the three. -/
theorem flatScan_pass_of (p : Char → Bool) {c : Located} (cs : List Located)
    (hc : p c.char = true) (hescape : p '\\' = false) (hgroup : p '[' = false)
    (hcolon : p ':' = false) : flatScan 0 (c :: cs) = flatScan 0 cs := by
  have hne : ∀ d, p d = false → c.char ≠ d := by
    rintro d hd rfl
    simp [hd] at hc
  exact flatScan_pass cs (hne _ hescape) (hne _ hgroup) (hne _ hcolon)

/-! ## Lengths and what is read -/

theorem nameLength_eq (cs : List Located) :
    nameLength false (cs.map Located.char) = (name cs).1.length := by
  fun_induction name cs with
  | case1 => rfl
  | case2 c hc => simp [nameLength, hc]
  | case3 c hc d rest body after hname ih =>
    simp only [hname] at ih
    simp [nameLength, hc, ih]
    omega
  | case4 c rest hc hname body after hrest ih =>
    simp only [hrest] at ih
    simp [nameLength, hc, hname, ih]
    omega
  | case5 c rest hc hname => simp [nameLength, hc, hname]

theorem take_nameLength (cs : List Located) :
    cs.take (nameLength false (cs.map Located.char)) = (name cs).1 := by
  have h := congrArg (List.take (name cs).1.length) (name_append cs)
  rw [nameLength_eq, ← h, List.take_left]

theorem drop_nameLength (cs : List Located) :
    cs.drop (nameLength false (cs.map Located.char)) = (name cs).2 := by
  have h := congrArg (List.drop (name cs).1.length) (name_append cs)
  rw [nameLength_eq, ← h, List.drop_left]

/-- Neither bracket is a quote, and they differ. -/
structure IsPair (left right : Char) : Prop where
  sides : left ≠ right
  left_quote : ¬(left = '"' ∨ left = '\'')
  right_quote : ¬(right = '"' ∨ right = '\'')

/-- A character that does not close the group changes what is open as it does for `group`, which
counts the bracket of the group too. -/
theorem groupLength_cons {left right : Char} (hpair : IsPair left right) {depth : Nat}
    {quote : Option Char} {c : Char} (cs : List Char) (hescape : c ≠ '\\')
    (hend : ¬(quote = none ∧ c = right ∧ depth = 0)) :
    ∃ inner, depthAfter left right (depth + 1) quote c = inner + 1 ∧
      groupLength left right depth quote false (c :: cs) =
        1 + groupLength left right inner (quoteAfter c quote) false cs := by
  cases quote with
  | some q => exact ⟨depth, rfl, by simp [groupLength, quoteAfter, hescape]⟩
  | none =>
    by_cases hquote : c = '"' ∨ c = '\''
    · have hleft : c ≠ left := fun h => hpair.left_quote (h ▸ hquote)
      have hright : c ≠ right := fun h => hpair.right_quote (h ▸ hquote)
      exact ⟨depth, by simp [depthAfter, hleft, hright],
        by simp [groupLength, quoteAfter, hescape, hquote]⟩
    · have hnext : quoteAfter c none = none := by simp [quoteAfter, hquote]
      rw [hnext, groupLength]
      rcases eq_or_ne c left with rfl | hleft
      · exact ⟨depth + 1, by simp [depthAfter], by simp [hescape, hquote]⟩
      · rcases eq_or_ne c right with rfl | hright
        · have hdepth : depth ≠ 0 := fun h => hend ⟨rfl, rfl, h⟩
          exact ⟨depth - 1, by simp [depthAfter, hleft]; omega,
            by simp [hescape, hquote, hleft, hdepth]⟩
        · exact ⟨depth, by simp [depthAfter, hleft, hright],
            by simp [hescape, hquote, hleft, hright]⟩

/-- Both ways of reading a group end it at the same bracket. -/
theorem groupLength_eq {left right : Char} (hpair : IsPair left right) {depth : Nat}
    {quote : Option Char} {cs body after : List Located}
    (h : group left right (depth + 1) quote cs = some (body, after)) :
    groupLength left right depth quote false (cs.map Located.char) = body.length := by
  generalize hopen : depth + 1 = opened at h
  fun_induction group left right opened quote cs generalizing depth body after with
  | case1 => simp at h
  | case2 => simp at h
  | case3 opened quote c hc d rest ih =>
    obtain ⟨⟨b, a⟩, hb, heq⟩ := Option.map_eq_some_iff.1 h
    obtain ⟨rfl, rfl⟩ := by simpa using heq
    simp [groupLength, hc, ih hopen hb]
    omega
  | case4 opened quote c rest hc hend =>
    obtain ⟨rfl, rfl⟩ := by simpa using h
    obtain ⟨rfl, hright, rfl⟩ := hend
    obtain rfl : depth = 0 := by omega
    have hescape : right ≠ '\\' := hright ▸ hc
    simp [groupLength, hright, hpair.right_quote, hpair.sides.symm, hescape]
  | case5 opened quote c rest hc hend ih =>
    obtain ⟨⟨b, a⟩, hb, heq⟩ := Option.map_eq_some_iff.1 h
    obtain ⟨rfl, rfl⟩ := by simpa using heq
    subst hopen
    obtain ⟨inner, hinner, hlength⟩ :=
      groupLength_cons hpair (rest.map Located.char) hc (by simpa using hend)
    rw [List.map_cons, hlength, ih hinner.symm hb, List.length_cons, Nat.add_comm]

theorem isPair_square : IsPair '[' ']' := ⟨by decide, by decide, by decide⟩

theorem isPair_round : IsPair '(' ')' := ⟨by decide, by decide, by decide⟩

/-- What follows a group that starts with its opening bracket. -/
theorem drop_groupLength {left right : Char} (hpair : IsPair left right) {c : Located}
    {rest body after : List Located} (hleft : c.char = left) (hescape : left ≠ '\\')
    (h : group left right 0 none (c :: rest) = some (body, after)) :
    rest.drop (groupLength left right 0 none false (rest.map Located.char)) = after := by
  rw [group.eq_def] at h
  simp only [hleft, hescape, if_false, Nat.zero_ne_one, and_false] at h
  obtain ⟨⟨b, a⟩, hb, heq⟩ := Option.map_eq_some_iff.1 h
  obtain ⟨rfl, rfl⟩ := by simpa using heq
  have hquote : quoteAfter left none = none := by rw [quoteAfter, if_neg hpair.left_quote]
  have hdepth : depthAfter left right 0 none left = 1 := by simp [depthAfter]
  rw [hquote, hdepth] at hb
  obtain ⟨_, _, _, rfl⟩ := group_eq_cons hb
  rw [groupLength_eq hpair hb, List.drop_left]

/-! ## Events -/

theorem map_ok {ε α β : Type} {f : α → β} {x : Except ε α} {b : β} (h : x.map f = .ok b) :
    ∃ a, x = .ok a ∧ f a = b := by
  cases x with
  | error e => simp [Except.map] at h
  | ok a => exact ⟨a, rfl, by simpa [Except.map] using h⟩

/-- A pseudo-class or pseudo-element as the flat scan gives it. -/
def Simple.token (unit : Simple) : String × Nat :=
  (unit.value, unit.index)

/-- The pseudo-classes and pseudo-elements that an event adds to the tree. -/
def Event.pseudos : Event → List Simple
  | .unit simple => if simple.kind = .pseudo then [simple] else []
  | .opens pseudo _ => [pseudo]
  | .comma | .closes => []

theorem flatScan_name (cs : List Located) : flatScan 0 cs = flatScan 0 (name cs).2 := by
  fun_induction name cs with
  | case1 => rfl
  | case2 c hc => simp [flatScan, hc]
  | case3 c hc d rest body after hname ih =>
    simp only [hname] at ih
    rw [← ih, flatScan, if_pos hc]
    rfl
  | case4 c rest hc hname body after hrest ih =>
    simp only [hrest] at ih
    rw [flatScan_pass_of isNameChar rest hname rfl rfl rfl, ih]
  | case5 => rfl

theorem flatScan_space {c : Located} (cs : List Located) (h : Text.isSpace c.char = true) :
    flatScan 0 (c :: cs) = flatScan 0 cs :=
  flatScan_pass_of Text.isSpace cs h rfl rfl rfl

theorem flatScan_skipSpace (cs : List Located) : flatScan 0 (skipSpace cs) = flatScan 0 cs := by
  induction cs with
  | nil => rfl
  | cons c cs ih =>
    by_cases hspace : Text.isSpace c.char = true
    · have hskip : skipSpace (c :: cs) = skipSpace cs := by simp [skipSpace, hspace]
      rw [hskip, ih, flatScan_space cs hspace]
    · have hskip : skipSpace (c :: cs) = c :: cs := by simp [skipSpace, hspace]
      rw [hskip]

/-- A name after one or two colons is taken, and with it an argument that is no list of
selectors. -/
theorem flatScan_colons {c : Located} {extra cs : List Located} (hc : c.char = ':')
    (hcount : colonCount (extra ++ cs) = extra.length + 1) (hname : (name cs).1 ≠ []) :
    flatScan 0 (c :: (extra ++ cs)) =
      (Located.text (c :: extra ++ (name cs).1), c.offset) ::
        flatScan 0 ((name cs).2.drop (argumentLength (name cs).1 (name cs).2)) := by
  have hlength : (name cs).1.length ≠ 0 := by simpa using hname
  have hdrop : (c :: (extra ++ cs)).drop (extra.length + 1) = cs := by simp
  have htake : (c :: (extra ++ cs)).take (extra.length + 1 + (name cs).1.length) =
      c :: extra ++ (name cs).1 := by
    have hsplit : c :: (extra ++ cs) = (c :: extra ++ (name cs).1) ++ (name cs).2 := by
      simp [name_append]
    rw [hsplit, List.take_left' (by simp; omega)]
  rw [flatScan]
  simp only [hc, hcount, hdrop, nameLength_eq, hlength, htake, if_true, if_false,
    Char.reduceEq]
  rw [flatScan_eq_drop]
  have htaken := take_nameLength cs
  have hrest := drop_nameLength cs
  rw [nameLength_eq] at htaken hrest
  have hskip : extra.length + 1 - 1 = extra.length := rfl
  rw [htaken, hrest, hskip, Nat.add_assoc, ← List.drop_drop, List.drop_left, ← List.drop_drop,
    hrest]

/-- What `Event.named` reads is a name and the argument that the flat scan passes with it. -/
theorem named_ok {index : Nat} {colons cs after : List Located} {event : Event}
    (h : Event.named index colons cs = .ok (event, after)) :
    (name cs).1 ≠ [] ∧
      event.pseudos = [⟨.pseudo, Located.text (colons ++ (name cs).1), index⟩] ∧
      flatScan 0 after =
        flatScan 0 ((name cs).2.drop (argumentLength (name cs).1 (name cs).2)) := by
  unfold Event.named at h
  split at h
  · simp at h
  · rename_i body beyond hbody hname
    rw [hname]
    refine ⟨hbody, ?_⟩
    simp only at h ⊢
    split at h
    · rename_i paren inner
      split at h
      · rename_i hparen
        split at h
        · rename_i htakes
          obtain ⟨rfl, rfl⟩ := by simpa using h
          refine ⟨rfl, ?_⟩
          simp only [List.contains_iff_mem] at htakes
          simp only [argumentLength, hparen, htakes, not_true, and_false, if_false, List.drop_zero]
          exact (flatScan_pass _ (by simp [hparen]) (by simp [hparen]) (by simp [hparen])).symm
        · rename_i htakes
          simp only [List.contains_iff_mem] at htakes
          split at h
          · rename_i hgroup
            obtain ⟨rfl, rfl⟩ := by simpa using h
            refine ⟨rfl, ?_⟩
            simp only [argumentLength, hparen, htakes, not_false_eq_true, and_self, if_true,
              Nat.add_comm 1, List.drop_succ_cons]
            rw [drop_groupLength isPair_round hparen (by decide) hgroup]
          · simp at h
      · rename_i hparen
        obtain ⟨rfl, rfl⟩ := by simpa using h
        simp [Event.pseudos, argumentLength, hparen]
    · obtain ⟨rfl, rfl⟩ := by simpa using h
      simp [Event.pseudos]

theorem ofPseudo_scan {c : Located} {rest after : List Located} {event : Event}
    (hc : c.char = ':') (h : Event.ofPseudo c rest = .ok (event, after)) :
    flatScan 0 (c :: rest) = event.pseudos.map Simple.token ++ flatScan 0 after := by
  -- One colon or two: in both cases the name starts right after them.
  suffices hcolons : ∃ extra cs, rest = extra ++ cs ∧ colonCount rest = extra.length + 1 ∧
      Event.named c.offset (c :: extra) cs = .ok (event, after) by
    obtain ⟨extra, cs, rfl, hcount, hnamed⟩ := hcolons
    obtain ⟨hname, hpseudos, hafter⟩ := named_ok hnamed
    rw [flatScan_colons hc hcount hname, hpseudos, hafter]
    rfl
  unfold Event.ofPseudo at h
  split at h
  · rename_i d rest'
    split at h
    · rename_i hd
      exact ⟨[d], rest', rfl, by simp [colonCount, hd], h⟩
    · rename_i hd
      exact ⟨[], d :: rest', rfl, by simp [colonCount, hd], h⟩
  · exact ⟨[], [], rfl, rfl, h⟩

/-- An event adds to the tree what the flat scan finds in the characters that it takes. -/
theorem ofStart_scan {c : Located} {rest after : List Located} {event : Event}
    (h : Event.ofStart c rest = .ok (event, after)) :
    flatScan 0 (c :: rest) = event.pseudos.map Simple.token ++ flatScan 0 after := by
  unfold Event.ofStart at h
  split at h
  · rename_i hmark
    have hpass : flatScan 0 (c :: rest) = flatScan 0 rest := by
      exact flatScan_pass_of (fun d => d = '.' ∨ d = '#') rest (by simpa using hmark) rfl rfl rfl
    split at h
    · simp at h
    · rename_i body beyond hbody hname
      obtain ⟨rfl, rfl⟩ := by simpa using h
      rw [hpass, flatScan_name, hname]
      rcases hmark with hc | hc <;> simp [Event.pseudos, hc]
  split at h
  · rename_i hc
    obtain ⟨rfl, rfl⟩ := by simpa using h
    rw [flatScan_pass rest (by simp [hc]) (by simp [hc]) (by simp [hc])]
    rfl
  split at h
  · rename_i hc
    obtain ⟨rfl, rfl⟩ := by simpa using h
    rw [flatScan_pass rest (by simp [hc]) (by simp [hc]) (by simp [hc])]
    rfl
  split at h
  · rename_i hc
    split at h
    · rename_i body beyond hgroup
      obtain ⟨rfl, rfl⟩ := by simpa using h
      rw [flatScan, if_neg (by simp [hc]), if_pos hc, flatScan_eq_drop,
        drop_groupLength isPair_square hc (by decide) hgroup]
      rfl
    · simp at h
  split at h
  · rename_i hc
    exact ofPseudo_scan hc h
  split at h
  · rename_i hname
    obtain ⟨rfl, rfl⟩ := by simpa using h
    rw [flatScan_pass_of isNameChar rest hname rfl rfl rfl, flatScan_name]
    rfl
  · simp at h

/-! ## The tree -/

/-- All pseudo-classes and pseudo-elements of the lists under construction, from left to right. -/
def Pending.pseudos (p : Pending) : List Simple :=
  pseudosOf p.components ++ pseudosOfList p.selectors ++
    p.outer.flatMap fun (components, selectors) => pseudosOf components ++ pseudosOfList selectors

theorem pseudos_push (event : Event) (p : Pending) :
    (p.push event).pseudos = event.pseudos ++ p.pseudos := by
  obtain ⟨components, selectors, outer⟩ := p
  cases event with
  | unit simple => simp [Pending.push, Pending.pseudos, Event.pseudos, pseudosOf, Component.pseudos]
  | comma => simp [Pending.push, Pending.pseudos, Event.pseudos, pseudosOf, pseudosOfList]
  | closes => simp [Pending.push, Pending.pseudos, Event.pseudos, pseudosOf, pseudosOfList]
  | opens pseudo paren =>
    cases outer <;>
      simp [Pending.push, Pending.pseudos, Event.pseudos, pseudosOf, pseudosOfList,
        Component.pseudos]

theorem pseudos_foldr (events : List Event) (p : Pending) :
    (events.foldr Pending.push p).pseudos = events.flatMap Event.pseudos ++ p.pseudos := by
  induction events with
  | nil => rfl
  | cons event events ih => rw [List.foldr_cons, pseudos_push, ih, List.flatMap_cons,
      List.append_assoc]

/-- What a scan finds from `cs` on, where the parentheses `parens` are still open: the events add
what the flat scan finds, and they close what is open. -/
structure Event.Covers (parens : List Nat) (cs : List Located) (events : List Event) : Prop where
  tokens : (events.flatMap Event.pseudos).map Simple.token = flatScan 0 cs
  closed : (events.foldr Pending.push ⟨[], [], []⟩).outer.length = parens.length

namespace Event

/-- Characters in which the flat scan finds nothing may be passed. -/
theorem Covers.pass {parens : List Nat} {cs next : List Located} {events : List Event}
    (h : Covers parens next events) (hscan : flatScan 0 cs = flatScan 0 next) :
    Covers parens cs events :=
  ⟨h.tokens.trans hscan.symm, h.closed⟩

theorem Covers.cons {parens inner : List Nat} {cs next : List Located} {event : Event}
    {events : List Event} (h : Covers inner next events) (hinner : event.openAfter parens = inner)
    (hscan : flatScan 0 cs = event.pseudos.map Simple.token ++ flatScan 0 next)
    (hcloses : event = .closes → parens ≠ []) : Covers parens cs (event :: events) := by
  refine ⟨by rw [List.flatMap_cons, List.map_append, h.tokens, hscan], ?_⟩
  have hclosed := h.closed
  rw [← hinner] at hclosed
  rw [List.foldr_cons]
  generalize events.foldr Pending.push ⟨[], [], []⟩ = p at hclosed
  obtain ⟨components, selectors, outer⟩ := p
  cases event with
  | unit simple => exact hclosed
  | comma => exact hclosed
  | closes =>
    obtain ⟨paren, inner, rfl⟩ := List.exists_cons_of_ne_nil (hcloses rfl)
    simpa [Pending.push, openAfter] using hclosed
  | opens pseudo paren =>
    cases outer with
    -- What follows the parenthesis closes it, so its end is on the stack.
    | nil => simp [openAfter] at hclosed
    | cons around outer => simpa [Pending.push, openAfter] using hclosed

theorem ofStart_ne_closes {c : Located} {rest after : List Located} {event : Event}
    (h : ofStart c rest = .ok (event, after)) : event ≠ .closes := by
  have hnamed : ∀ {index colons cs}, named index colons cs = .ok (event, after) →
      event ≠ .closes := by
    rintro index colons cs hn rfl
    simpa [Event.pseudos] using (named_ok hn).2.1
  unfold ofStart ofPseudo at h
  rintro rfl
  grind

theorem scan_covers {size : Nat} {parens : List Nat} {fresh : Bool} {cs : List Located}
    {events : List Event} (h : scan size parens fresh cs = .ok events) :
    Covers parens cs events := by
  fun_induction scan size parens fresh cs generalizing events with
  | case1 => simp at h
  | case2 =>
    obtain rfl := by simpa using h
    exact ⟨rfl, rfl⟩
  | case3 => simp at h
  | case4 => simp at h
  | case5 parens fresh c rest hc _ ih =>
    obtain ⟨more, hmore, rfl⟩ := map_ok h
    refine (ih hmore).cons rfl ?_ (by simp)
    rw [flatScan_skipSpace]
    exact flatScan_pass rest (by simp [hc]) (by simp [hc]) (by simp [hc])
  | case6 => simp at h
  | case7 => simp at h
  | case8 fresh c rest _ hc _ paren outer ih =>
    obtain ⟨more, hmore, rfl⟩ := map_ok h
    refine (ih hmore).cons rfl ?_ (by simp)
    exact flatScan_pass rest (by simp [hc]) (by simp [hc]) (by simp [hc])
  | case9 parens fresh c rest _ _ hc ih =>
    obtain ⟨more, hmore, rfl⟩ := map_ok h
    refine (ih hmore).cons rfl ?_ (by simp)
    rw [flatScan_skipSpace]
    exact flatScan_pass_of isCombinator rest hc rfl rfl rfl
  | case10 parens fresh c rest _ _ _ hspace hrest ih =>
    exact (ih h).pass (by rw [← hrest, flatScan_skipSpace, flatScan_space rest hspace])
  | case11 parens fresh c rest _ _ _ hspace d after hrest _ hd ih =>
    obtain ⟨more, hmore, rfl⟩ := map_ok h
    refine (ih hmore).cons rfl ?_ (by simp)
    rw [flatScan_skipSpace, flatScan_space rest hspace, ← flatScan_skipSpace, hrest]
    exact flatScan_pass_of isCombinator after hd rfl rfl rfl
  | case12 parens fresh c rest _ _ _ hspace d after hrest _ _ _ ih =>
    exact (ih h).pass (by rw [← hrest, flatScan_skipSpace, flatScan_space rest hspace])
  | case13 parens fresh c rest _ _ _ hspace d after hrest _ _ _ ih =>
    obtain ⟨more, hmore, rfl⟩ := map_ok h
    refine (ih hmore).cons rfl ?_ (by simp)
    rw [← hrest, flatScan_skipSpace]
    exact flatScan_space rest hspace
  | case14 => simp at h
  | case15 parens fresh c rest _ _ _ _ event after hstart _ next =>
    rename_i ih
    obtain ⟨more, hmore, rfl⟩ := map_ok h
    -- Blanks at the start of a selector are passed by both.
    have hnext : flatScan 0 next = flatScan 0 after := by
      simp only [next]
      split
      · exact flatScan_skipSpace after
      · rfl
    exact (ih hmore).cons rfl (by rw [hnext, ofStart_scan hstart])
      fun hcloses => absurd hcloses (ofStart_ne_closes hstart)

end Event

/-- The walk over the tree visits what the flat scan finds. -/
theorem parse_flat {text : String} {list : List (List Component)} (h : parse text = .ok list) :
    (pseudosOfList list).map Simple.token = flatPseudos text := by
  obtain ⟨events, hscan, rfl⟩ := map_ok h
  have hcovers := Event.scan_covers hscan
  -- Nothing is left open, so no list around the outermost one is lost.
  have houter : (events.foldr Pending.push ⟨[], [], []⟩).outer = [] := by
    simpa using hcovers.closed
  have hpseudos := pseudos_foldr events ⟨[], [], []⟩
  simp only [Pending.pseudos, houter, List.flatMap_nil, List.append_nil, pseudosOf,
    pseudosOfList] at hpseudos
  rw [selectors, pseudosOfList, hpseudos, hcovers.tokens, flatScan_skipSpace]
  rfl

/-! ## Places -/

/-- The tokens start where characters of the text stand, in their order. -/
theorem flatScan_sublist (skip : Nat) (cs : List Located) :
    ((flatScan skip cs).map Prod.snd).Sublist (cs.map Located.offset) := by
  induction cs generalizing skip with
  | nil => simp [flatScan]
  | cons c cs ih =>
    have hpass : ∀ n, ((flatScan n cs).map Prod.snd).Sublist ((c :: cs).map Located.offset) :=
      fun n => (ih n).cons _
    cases skip with
    | succ skip => exact hpass skip
    | zero =>
      rw [flatScan]
      dsimp only
      split_ifs
      · exact hpass 1
      · exact hpass _
      · exact hpass 0
      · exact (ih _).cons_cons _
      · exact hpass 0

/-- A token is a piece of the text that starts with a colon, where its offset says. -/
theorem flatScan_piece {skip : Nat} {cs : List Located} {token : String × Nat}
    (h : token ∈ flatScan skip cs) :
    ∃ before c piece after, cs = before ++ (c :: piece ++ after) ∧ c.char = ':' ∧
      token = (Located.text (c :: piece), c.offset) := by
  induction cs generalizing skip with
  | nil => simp [flatScan] at h
  | cons d cs ih =>
    have hpass : ∀ {n}, token ∈ flatScan n cs → ∃ before c piece after,
        d :: cs = before ++ (c :: piece ++ after) ∧ c.char = ':' ∧
          token = (Located.text (c :: piece), c.offset) := by
      intro n hn
      obtain ⟨before, c, piece, after, rfl, hrest⟩ := ih hn
      exact ⟨d :: before, c, piece, after, rfl, hrest⟩
    cases skip with
    | succ skip => exact hpass h
    | zero =>
      rw [flatScan] at h
      dsimp only at h
      split_ifs at h with hescape hgroup hcolon hlength
      · exact hpass h
      · exact hpass h
      · exact hpass h
      · rcases List.mem_cons.1 h with rfl | h
        · obtain ⟨n, hn⟩ : ∃ n, nameLength false
              (((d :: cs).drop (colonCount cs)).map Located.char) = n + 1 :=
            Nat.exists_eq_succ_of_ne_zero hlength
          rw [hn, ← Nat.add_assoc, List.take_succ_cons]
          exact ⟨[], d, cs.take (colonCount cs + n), cs.drop (colonCount cs + n), by simp, hcolon,
            rfl⟩
        · exact hpass h
      · exact hpass h

/-- A visited unit is a piece of the text that starts with a colon, where its index says. -/
theorem parse_piece {text : String} {list : List (List Component)} (h : parse text = .ok list)
    {pseudo : Simple} (hmem : pseudo ∈ pseudosOfList list) :
    ∃ before c piece after, Located.ofString text = before ++ (c :: piece ++ after) ∧
      c.char = ':' ∧ pseudo.value = Located.text (c :: piece) ∧ pseudo.index = c.offset := by
  have htoken : pseudo.token ∈ flatPseudos text :=
    parse_flat h ▸ List.mem_map_of_mem hmem
  obtain ⟨before, c, piece, after, htext, hcolon, heq⟩ := flatScan_piece htoken
  obtain ⟨hvalue, hindex⟩ := Prod.mk.inj heq
  exact ⟨before, c, piece, after, htext, hcolon, hvalue, hindex⟩

theorem parse_increasing {text : String} {list : List (List Component)}
    (h : parse text = .ok list) : ((pseudosOfList list).map Simple.index).Pairwise (· < ·) := by
  have hoffsets : ((Located.ofString text).map Located.offset).Pairwise (· < ·) := by
    rw [List.pairwise_map]
    exact (Located.runs_ofString text).pairwise.imp fun hle =>
      Nat.lt_of_lt_of_le (Located.offset_lt_stop _) hle
  have hindex : (pseudosOfList list).map Simple.index = (flatPseudos text).map Prod.snd := by
    rw [← parse_flat h, List.map_map]
    rfl
  rw [hindex]
  exact hoffsets.sublist (flatScan_sublist 0 _)

/-! ## Nesting -/

/-- The component stands in one of the selectors or, at any depth, in an argument of one. -/
inductive Component.Occurs : Component → List (List Component) → Prop
  | here {c : Component} {selector : List Component} {list : List (List Component)} :
      selector ∈ list → c ∈ selector → Occurs c list
  | inside {c : Component} {pseudo : Simple} {selector : List Component}
      {arguments list : List (List Component)} :
      selector ∈ list → .applied pseudo arguments ∈ selector → Occurs c arguments → Occurs c list

theorem mem_pseudosOf {unit : Simple} {selector : List Component} :
    unit ∈ pseudosOf selector ↔ ∃ c ∈ selector, unit ∈ c.pseudos := by
  induction selector with
  | nil => simp [pseudosOf]
  | cons c cs ih => simp [pseudosOf, ih]

theorem mem_pseudosOfList {unit : Simple} {list : List (List Component)} :
    unit ∈ pseudosOfList list ↔ ∃ selector ∈ list, ∃ c ∈ selector, unit ∈ c.pseudos := by
  induction list with
  | nil => simp [pseudosOfList]
  | cons s ss ih => simp [pseudosOfList, mem_pseudosOf, ih]

/-- The walk visits every pseudo-class and pseudo-element, however deep it stands. -/
theorem Component.Occurs.visited {c : Component} {list : List (List Component)}
    (h : Occurs c list) (hkind : c.head.kind = .pseudo) : c.head ∈ pseudosOfList list := by
  induction h with
  | @here selector list hselector hc =>
    refine mem_pseudosOfList.2 ⟨selector, hselector, c, hc, ?_⟩
    cases c with
    | simple unit => simpa [Component.pseudos, Component.head] using hkind
    | applied pseudo arguments => simp [Component.pseudos, Component.head]
  | inside hselector happlied _ ih =>
    exact mem_pseudosOfList.2
      ⟨_, hselector, _, happlied, by rw [Component.pseudos]; exact List.mem_cons_of_mem _ ih⟩

/-- The walk over a selector list visits, in order, the tokens of the flat scan: each where its
index says, none twice and none left out at any depth. -/
theorem pseudos_sound_complete {text : String} {list : List (List Component)}
    (h : parse text = .ok list) :
    (pseudosOfList list).map (fun p => (p.value, p.index)) = flatPseudos text ∧
      ((pseudosOfList list).map Simple.index).Pairwise (· < ·) ∧
      (∀ p ∈ pseudosOfList list, ∃ before after, text = before ++ p.value ++ after ∧
        before.utf8ByteSize = p.index) ∧
      (∀ c, Component.Occurs c list → c.head.kind = .pseudo → c.head ∈ pseudosOfList list) ∧
      (pseudosOfList list).Nodup := by
  have hincreasing := parse_increasing h
  refine ⟨parse_flat h, hincreasing, ?_, fun c hc => hc.visited, ?_⟩
  · intro p hp
    obtain ⟨before, c, piece, after, htext, _, hvalue, hindex⟩ := parse_piece h hp
    refine ⟨Located.text before, Located.text after, ?_, ?_⟩
    · rw [hvalue]
      exact Located.eq_text_append htext
    · rw [Located.utf8ByteSize_text, hindex, Located.offset_eq_size htext]
  · exact (hincreasing.imp Nat.ne_of_lt).of_map _ fun _ _ hne heq => hne (congrArg _ heq)

/-- Nested lists, vendor marks, an escaped colon, colons in quotes and an argument that is no list
of selectors. -/
def sampleSelector : String :=
  "é\\:x:not(a:-webkit-any(:hover),[y=\":z]\"]::before):nth-child(:q)"

theorem pseudos_sound_complete_sample : ∃ list, parse sampleSelector = .ok list ∧
    (pseudosOfList list).map (fun p => (p.value, p.index)) =
      [(":not", 5), (":-webkit-any", 11), (":hover", 24), ("::before", 41), (":nth-child", 50)] ∧
    (pseudosOfList list).Nodup := by
  cases hparse : parse sampleSelector with
  | error e =>
    have hsome : (parse sampleSelector).toOption.isSome = true := by decide +kernel
    simp [hparse, Except.toOption] at hsome
  | ok list =>
    obtain ⟨hflat, _, _, _, hnodup⟩ := pseudos_sound_complete hparse
    exact ⟨list, rfl, hflat.trans (by decide +kernel), hnodup⟩

end SheetPolicy.Selector
