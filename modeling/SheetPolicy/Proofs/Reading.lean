import Mathlib
import SheetPolicy.Sheet.Event
import SheetPolicy.Proofs.Excerpt

/-!
The tree by recursive descent. `Event.scan` finds a flat list of events and `Event.nodes` folds them
into a tree; here the two together are shown to read block by block (`Event.Reads`), so that facts
about trees are proved by induction over that reading. Conversely a source that is read so to its end
parses (`Event.parse_of_reads`).
-/

namespace SheetPolicy.Event

/-- The character stands between nodes: white space or a semicolon. -/
def IsFiller (c : Located) : Prop :=
  Text.isSpace c.char = true ∨ c.char = ';'

/-- Reading the nodes of one block: from the first list on these nodes are found, up to the second
list, which is empty or starts with the brace that closes the block. -/
inductive Reads (size : Nat) : List Located → List Node → List Located → Prop
  | finish : Reads size [] [] []
  | close {c : Located} {rest : List Located} :
      c.char = '}' → Reads size (c :: rest) [] (c :: rest)
  | filler {c : Located} {rest after : List Located} {nodes : List Node} :
      IsFiller c → Reads size rest nodes after → Reads size (c :: rest) nodes after
  | leaf {c : Located} {rest next after : List Located} {node : Node} {nodes : List Node} :
      ¬IsFiller c → c.char ≠ '}' → ofStart size c rest = .ok (.leaf node, next) →
      Reads size next nodes after → Reads size (c :: rest) (node :: nodes) after
  | block {c close : Located} {rest inner outer after : List Located} {start brace : Nat}
      {head : Head} {body nodes : List Node} :
      ¬IsFiller c → c.char ≠ '}' → ofStart size c rest = .ok (.opens start brace head, inner) →
      Reads size inner body (close :: outer) → close.char = '}' → Reads size outer nodes after →
      Reads size (c :: rest) (head.node ⟨start, close.stop⟩ body :: nodes) after

/-- Reading to the end of the source through the blocks still open: `outer` has for each of them
where it ends and the nodes that follow it. -/
def ReadsOut (size : Nat) : List Located → List Node → List (Nat × List Node) → Prop
  | cs, nodes, [] => Reads size cs nodes []
  | cs, nodes, (stop, next) :: outer =>
    ∃ c rest, Reads size cs nodes (c :: rest) ∧ c.char = '}' ∧ c.stop = stop ∧
      ReadsOut size rest next outer

/-- What is put in front of the nodes of the current block leaves the outer blocks alone. -/
theorem ReadsOut.map {size : Nat} {cs ds : List Located} {nodes nodes' : List Node}
    {outer : List (Nat × List Node)}
    (hfront : ∀ after, Reads size cs nodes after → Reads size ds nodes' after)
    (h : ReadsOut size cs nodes outer) : ReadsOut size ds nodes' outer := by
  cases outer with
  | nil => exact hfront [] h
  | cons frame outer =>
    obtain ⟨c, rest, hreads, hclose⟩ := h
    exact ⟨c, rest, hfront _ hreads, hclose⟩

theorem ofStart_ne_closes {size stop : Nat} {c : Located} {rest after : List Located}
    (h : ofStart size c rest = .ok (.closes stop, after)) : False := by
  unfold ofStart at h
  split at h
  · simp only [ofAtRule, bind, Except.bind] at h
    repeat' split at h
    all_goals simp [pure, Except.pure] at h
  · split at h
    · unfold ofComment at h
      split at h <;> simp at h
    · simp only [ofStatement, bind, Except.bind] at h
      repeat' split at h
      all_goals simp [pure, Except.pure] at h

/-- The events found by a scan, folded into a tree, read block by block. -/
theorem scan_readsOut {size : Nat} {braces : List Nat} {cs : List Located} {events : List Event}
    (h : scan size braces cs = .ok events) :
    ReadsOut size cs (events.foldr Pending.push ⟨[], []⟩).nodes
        (events.foldr Pending.push ⟨[], []⟩).outer ∧
      (events.foldr Pending.push ⟨[], []⟩).outer.length = braces.length := by
  fun_induction scan size braces cs generalizing events with
  | case1 =>
    obtain rfl := by simpa using h
    exact ⟨.finish, rfl⟩
  | case2 => simp at h
  | case3 braces c rest hfill ih =>
    obtain ⟨hreads, hlen⟩ := ih h
    exact ⟨hreads.map fun _ => .filler hfill, hlen⟩
  | case4 => simp at h
  | case5 => simp at h
  | case6 c rest _ hclose _ outer events' hevents ih =>
    obtain rfl := by simpa using h
    obtain ⟨hreads, hlen⟩ := ih hevents
    exact ⟨⟨c, rest, .close hclose, hclose, rfl, hreads⟩, congrArg (· + 1) hlen⟩
  | case7 => simp at h
  | case8 => simp at h
  | case9 braces c rest hfill hclose event after hstart _ events' hevents ih =>
    obtain rfl := by simpa using h
    obtain ⟨hreads, hlen⟩ := ih hevents
    cases event with
    | closes stop => exact (ofStart_ne_closes hstart).elim
    | leaf node => exact ⟨hreads.map fun _ => .leaf hfill hclose hstart, hlen⟩
    | opens start brace head =>
      rw [List.foldr_cons]
      generalize events'.foldr Pending.push ⟨[], []⟩ = p at hreads hlen ⊢
      obtain ⟨body, outer⟩ := p
      cases outer with
      | nil => simp [openAfter] at hlen
      | cons frame outer =>
        obtain ⟨stop, next⟩ := frame
        obtain ⟨close, rest', hbody, hbrace, rfl, hnext⟩ := hreads
        refine ⟨hnext.map fun _ => .block hfill hclose hstart hbody hbrace, ?_⟩
        simpa [openAfter, Pending.push] using hlen

/-- A sheet that parses is read from its first character to its last. -/
theorem parse_reads {source : String} {sheet : Sheet} (h : Sheet.parse source = .ok sheet) :
    sheet.source = source ∧
      Reads source.utf8ByteSize (Located.ofString source) sheet.nodes [] := by
  unfold Sheet.parse at h
  cases hscan : scan source.utf8ByteSize [] (Located.ofString source) with
  | error e => simp [hscan, Except.map] at h
  | ok events =>
    obtain rfl := by simpa [hscan, Except.map] using h
    obtain ⟨hreads, hlen⟩ := scan_readsOut hscan
    refine ⟨rfl, ?_⟩
    rw [List.length_nil, List.length_eq_zero_iff] at hlen
    rw [hlen] at hreads
    exact hreads

/-! ## Readings are scans -/

/-- A scan goes on behind the event that it starts with. -/
theorem scan_event {size : Nat} {braces : List Nat} {c : Located} {rest next : List Located}
    {event : Event} (hfill : ¬IsFiller c) (hclose : c.char ≠ '}')
    (h : ofStart size c rest = .ok (event, next)) :
    scan size braces (c :: rest) =
      (scan size (event.openAfter braces) next).map (event :: ·) := by
  unfold IsFiller at hfill
  rw [scan.eq_def]
  simp only [if_neg hfill, dif_neg hclose]
  split
  · next e he => simp [he] at h
  · next other after he =>
    obtain ⟨rfl, rfl⟩ : other = event ∧ after = next := by simpa [he] using h
    cases scan size (other.openAfter braces) after <;> rfl

theorem scan_error {size : Nat} {braces : List Nat} {c : Located} {rest : List Located}
    {e : ParseError} (hfill : ¬IsFiller c) (hclose : c.char ≠ '}')
    (h : ofStart size c rest = .error e) : scan size braces (c :: rest) = .error e := by
  unfold IsFiller at hfill
  rw [scan.eq_def]
  simp only [if_neg hfill, dif_neg hclose]
  split
  · next he => simpa [h] using he.symm
  · next he => simp [h] at he

theorem scan_close {size brace : Nat} {braces : List Nat} {c : Located} {rest : List Located}
    (hclose : c.char = '}') :
    scan size (brace :: braces) (c :: rest) =
      (scan size braces rest).map (.closes c.stop :: ·) := by
  rw [scan, if_neg (by simp [hclose, Text.isSpace]), dif_pos hclose]
  cases scan size braces rest <;> rfl

/-- A reading is one that a scan makes: the events of the nodes stand in front of those that
follow, and the fold puts the nodes in front of those that follow. -/
theorem Reads.scan_eq {size : Nat} {cs after : List Located} {nodes : List Node}
    (h : Reads size cs nodes after) :
    ∃ events, (∀ braces, scan size braces cs = (scan size braces after).map (events ++ ·)) ∧
      ∀ p : Pending, events.foldr Pending.push p = ⟨nodes ++ p.nodes, p.outer⟩ := by
  induction h with
  | finish =>
    refine ⟨[], fun braces => ?_, fun p => rfl⟩
    cases scan size braces [] <;> rfl
  | @close c rest _ =>
    refine ⟨[], fun braces => ?_, fun p => rfl⟩
    cases scan size braces (c :: rest) <;> rfl
  | filler hfill _ ih =>
    obtain ⟨events, hscan, hfold⟩ := ih
    refine ⟨events, fun braces => ?_, hfold⟩
    unfold IsFiller at hfill
    rw [scan.eq_def]
    simp only [if_pos hfill, hscan]
  | @leaf c rest next after node nodes hfill hclose hstart _ ih =>
    obtain ⟨events, hscan, hfold⟩ := ih
    refine ⟨.leaf node :: events, fun braces => ?_, fun p => ?_⟩
    · rw [scan_event hfill hclose hstart, openAfter, hscan]
      cases scan size braces after <;> rfl
    · rw [List.foldr_cons, hfold]
      rfl
  | @block c close rest inner outer after start brace head body nodes hfill hclose hstart _ hbrace _
      ihbody ih =>
    obtain ⟨bodyEvents, hbodyScan, hbodyFold⟩ := ihbody
    obtain ⟨events, hscan, hfold⟩ := ih
    refine ⟨.opens start brace head :: (bodyEvents ++ .closes close.stop :: events),
      fun braces => ?_, fun p => ?_⟩
    · rw [scan_event hfill hclose hstart, openAfter, hbodyScan, scan_close hbrace, hscan]
      cases scan size braces after with
      | error e => rfl
      | ok more => simp [Except.map]
    · rw [List.foldr_cons, List.foldr_append, List.foldr_cons, hfold, Pending.push, hbodyFold,
        Pending.push]
      simp

/-- A source that is read to its end parses into the nodes read. -/
theorem parse_of_reads {source : String} {nodes : List Node}
    (h : Reads source.utf8ByteSize (Located.ofString source) nodes []) :
    Sheet.parse source = .ok ⟨source, nodes⟩ := by
  obtain ⟨events, hscan, hfold⟩ := h.scan_eq
  simp [Sheet.parse, hscan, scan, Except.map, Event.nodes, hfold]

end SheetPolicy.Event
