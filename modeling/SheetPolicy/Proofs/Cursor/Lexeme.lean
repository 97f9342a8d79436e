import Mathlib
import SheetPolicy.Sheet.Event
import SheetPolicy.Proofs.Passage
import SheetPolicy.Proofs.Cursor.Access

/-!
Strings, comments and the ends of statements by byte offsets. The loops step over single bytes, and
over two at a backslash, so that their offset may stand inside a character or behind the end; what
they find is still where the units of the text end (`scanPrelude_spot`), and what they skip are the
strings and comments among these units (`scanSkips_spot`).
-/

namespace SheetPolicy.Cursor

/-- The offset behind the closing quote of a string that goes on at `i`. -/
def stringEnd? (text : String) (quote : Char) (i : Nat) : Option Nat :=
  match h : byte? text i with
  | none => none
  | some b =>
    if b = '\\' then stringEnd? text quote (i + 2)
    else if b = quote then some (i + 1)
    else stringEnd? text quote (i + 1)
termination_by text.utf8ByteSize - i
decreasing_by all_goals have := lt_size_of_byte? h; omega

/-- The offset behind the string that starts at `start`. -/
def skipString (text : String) (start : Nat) : Checked ParseError Nat := do
  let quote ← byte text start
  match stringEnd? text quote (start + 1) with
  | some stop => .ok stop
  | none => refuse (.unclosedString start)

/-- The offset behind the comment that starts at `start`. -/
def skipComment (text : String) (start : Nat) : Checked ParseError Nat := do
  let tail ← cutFrom text (start + 2)
  match find? "*/" tail with
  | some n => .ok (start + 2 + n + 2)
  | none => refuse (.unclosedComment start)

/-- The offset behind the interpolation that starts at `start`, which the end of the text ends
too. -/
def skipInterpolation (text : String) (start : Nat) : Checked ParseError Nat := do
  let tail ← cutFrom text (start + 2)
  match find? "\x7d" tail with
  | some n => .ok (start + 2 + n + 1)
  | none => .ok text.utf8ByteSize

/-- The offset at which the statement ends that goes on at `i` at bracket depth `depth`, and the
character that ends it. -/
def scanPrelude (text : String) (depth i : Nat) : Checked ParseError (Nat × Option Char) :=
  match h : byte? text i with
  | none => .ok (text.utf8ByteSize, none)
  | some b =>
    if b = '\\' then scanPrelude text depth (i + 2)
    else if b = '"' ∨ b = '\'' then do
      let ⟨j, _⟩ ← onward text i (← skipString text i)
      scanPrelude text depth j
    else if b = '/' ∧ byte? text (i + 1) = some '*' then do
      let ⟨j, _⟩ ← onward text i (← skipComment text i)
      scanPrelude text depth j
    else if (b = '#' ∨ b = '@') ∧ byte? text (i + 1) = some '{' then do
      let ⟨j, _⟩ ← onward text i (← skipInterpolation text i)
      scanPrelude text depth j
    else if depth = 0 ∧ Prelude.isTerminator b then .ok (i, some b)
    else scanPrelude text (Prelude.depthAfter depth b) (i + 1)
termination_by text.utf8ByteSize - i
decreasing_by all_goals have := lt_size_of_byte? h; omega

/-- Goes on like `scanPrelude`, and notes down the strings and comments that are skipped. -/
def scanSkips (text : String) (depth i : Nat) :
    Checked ParseError (List Lexeme.Skip × Nat × Option Char) :=
  match h : byte? text i with
  | none => .ok ([], text.utf8ByteSize, none)
  | some b =>
    if b = '\\' then scanSkips text depth (i + 2)
    else if b = '"' ∨ b = '\'' then do
      let ⟨j, _⟩ ← onward text i (← skipString text i)
      let (skips, found) ← scanSkips text depth j
      .ok (⟨.quoted, i, j⟩ :: skips, found)
    else if b = '/' ∧ byte? text (i + 1) = some '*' then do
      let ⟨j, _⟩ ← onward text i (← skipComment text i)
      let (skips, found) ← scanSkips text depth j
      .ok (⟨.comment, i, j⟩ :: skips, found)
    else if (b = '#' ∨ b = '@') ∧ byte? text (i + 1) = some '{' then do
      let ⟨j, _⟩ ← onward text i (← skipInterpolation text i)
      scanSkips text depth j
    else if depth = 0 ∧ Prelude.isTerminator b then .ok ([], i, some b)
    else scanSkips text (Prelude.depthAfter depth b) (i + 1)
termination_by text.utf8ByteSize - i
decreasing_by all_goals have := lt_size_of_byte? h; omega

/-- The offset of the first byte from `i` on that fails `p`. -/
def skipWhile (text : String) (p : Char → Bool) (i : Nat) : Nat :=
  match h : byte? text i with
  | none => i
  | some b => if p b then skipWhile text p (i + 1) else i
termination_by text.utf8ByteSize - i
decreasing_by have := lt_size_of_byte? h; omega

/-! ## Strings -/

section

variable {text : String} {i : Nat} {b : Char}

theorem stringEnd?_of_none (quote : Char) (h : byte? text i = none) :
    stringEnd? text quote i = none := by
  rw [stringEnd?]
  split
  · rfl
  · simp_all

theorem stringEnd?_of_some (quote : Char) (h : byte? text i = some b) :
    stringEnd? text quote i =
      if b = '\\' then stringEnd? text quote (i + 2)
      else if b = quote then some (i + 1)
      else stringEnd? text quote (i + 1) := by
  rw [stringEnd?]
  split
  · simp_all
  · simp_all

theorem glides_stringEnd? {quote : Char} (hquote : quote.toNat ≤ 127) :
    Glides text (stringEnd? text quote) := by
  intro i b hb hlt
  have hne : ∀ k : Char, k.toNat ≤ 127 → b ≠ k := fun k => ne_of_ascii hlt
  rw [stringEnd?_of_some quote hb]
  simp [hne, hquote]

end

variable {text : String}

theorem stringEnd?_cons {quote : Char} (hquote : quote.toNat ≤ 127) {c : Located}
    {rest : List Located} (h : c :: rest <:+ Located.ofString text) :
    stringEnd? text quote c.offset =
      if c.char = '\\' then stringEnd? text quote (spot text rest.tail)
      else if c.char = quote then some (spot text rest)
      else stringEnd? text quote (spot text rest) := by
  have hglides : Glides text (stringEnd? text quote) := glides_stringEnd? hquote
  rcases Nat.lt_or_ge 127 c.char.toNat with hc | hc
  · rw [if_neg (ne_of_ascii hc (by decide)), if_neg (ne_of_ascii hc hquote), hglides.start_eq h hc]
  · have hend : stringEnd? text quote (text.utf8ByteSize + 1) =
        stringEnd? text quote text.utf8ByteSize := by
      rw [stringEnd?_of_none quote (byte?_size text),
        stringEnd?_of_none quote (byte?_eq_none_iff.2 (Nat.le_succ _))]
    rw [stringEnd?_of_some quote (byte?_of_ascii h hc), spot_rest h, stop_eq_of_ascii hc,
      hglides.escape_eq hend h hc]

theorem stringEnd?_spot {quote : Char} (hquote : quote.toNat ≤ 127) (hslash : quote ≠ '\\')
    {cs : List Located} (h : cs <:+ Located.ofString text) :
    stringEnd? text quote (spot text cs) =
      (Lexeme.closeString quote cs).map fun p => spot text p.2 := by
  fun_induction Lexeme.closeString quote cs with
  | case1 => simp [stringEnd?_of_none]
  | case2 c rest hc => simp [stringEnd?_cons hquote h, hc, hslash]
  | case3 c _ hc => simp [stringEnd?_cons hquote h, hc, stringEnd?_of_none]
  | case4 c _ hc d rest ih =>
    have hrest : rest <:+ Located.ofString text :=
      ((List.suffix_cons d rest).trans (List.suffix_cons c _)).trans h
    simp [stringEnd?_cons hquote h, hc, ih hrest, Function.comp_def]
  | case5 c rest hc hc' ih =>
    have hrest : rest <:+ Located.ofString text := (List.suffix_cons c rest).trans h
    simp [stringEnd?_cons hquote h, hc, hc', ih hrest, Function.comp_def]

theorem skipString_cons {c : Located} {rest : List Located}
    (h : c :: rest <:+ Located.ofString text) (hc : c.char = '"' ∨ c.char = '\'') :
    skipString text c.offset = faultless ((Lexeme.next c rest).map fun p => spot text p.2) := by
  have hascii : c.char.toNat ≤ 127 := by rcases hc with hc | hc <;> simp [hc]
  have hslash : c.char ≠ '\\' := by rcases hc with hc | hc <;> simp [hc]
  have hrest := (List.suffix_cons c rest).trans h
  rw [skipString, byte, byte?_of_ascii h hascii, ok_bind, ← stop_eq_of_ascii hascii, ← spot_rest h,
    stringEnd?_spot hascii hslash hrest, Lexeme.next.eq_def, if_neg hslash, if_pos hc]
  cases Lexeme.closeString c.char rest <;> rfl

/-! ## Comments and interpolations -/

theorem find?_cons (mark : String) (c : Located) (cs : List Located) :
    find? mark (Located.text (c :: cs)) =
      if Text.startsWith mark ((c :: cs).map Located.char) then some 0
      else (find? mark (Located.text cs)).map (c.char.utf8Size + ·) := by
  simp only [find?, Located.text, String.toList_ofList, List.map_cons, Text.splitAtFirst?,
    Text.startsWith]
  cases Text.afterPrefix? mark.toList (c.char :: cs.map Located.char) with
  | some after => simp
  | none =>
    cases Text.splitAtFirst? mark.toList (cs.map Located.char) with
    | none => rfl
    | some p => simp [Nat.add_comm]

@[simp] theorem find?_nil {mark : String} (h : mark.toList ≠ []) :
    find? mark (Located.text []) = none := by
  simpa [find?, Located.text, Text.splitAtFirst?] using h

theorem find?_comment (cs : List Located) :
    (find? "*/" (Located.text cs)).map (· + 2) =
      (Lexeme.closeComment cs).map fun p => Located.size p.1 := by
  fun_induction Lexeme.closeComment cs with
  | case1 => simp
  | case2 c =>
    rw [find?_cons]
    simp [Text.startsWith, Text.afterPrefix?]
  | case3 c d rest hcd =>
    rw [find?_cons]
    simp [Text.startsWith, Text.afterPrefix?, hcd]
    decide
  | case4 c d rest hcd ih =>
    have hmark : Text.startsWith "*/" ((c :: d :: rest).map Located.char) = false := by
      simp [Text.startsWith, Text.afterPrefix?]
      grind
    calc ((find? "*/" (Located.text (c :: d :: rest))).map (· + 2))
        = ((find? "*/" (Located.text (d :: rest))).map (· + 2)).map (c.char.utf8Size + ·) := by
          rw [find?_cons, hmark]
          simp [Function.comp_def, Nat.add_assoc]
      _ = _ := by
          rw [ih]
          simp [Function.comp_def]

theorem find?_singleton (k : Char) {start stop : Nat} {cs : List Located}
    (h : Located.Runs start cs stop) :
    (find? (String.singleton k) (Located.text cs)).map (start + ·) =
      (cs.find? fun c => c.char = k).map Located.offset := by
  induction cs generalizing start with
  | nil => simp
  | cons c cs ih =>
    obtain ⟨rfl, htail⟩ := h
    rw [find?_cons, List.find?_cons]
    by_cases hc : c.char = k
    · simp [hc, Text.startsWith, Text.afterPrefix?]
    · simp [hc, Ne.symm hc, Text.startsWith, Text.afterPrefix?, ← ih htail, Function.comp_def,
        Located.stop, Nat.add_assoc]

theorem skipComment_cons {c : Located} {tail : List Located}
    (h : c :: tail <:+ Located.ofString text)
    (hcomment : c.char = '/' ∧ tail.head?.map Located.char = some '*') :
    skipComment text c.offset = faultless ((Lexeme.next c tail).map fun p => spot text p.2) := by
  obtain ⟨hc, hhead⟩ := hcomment
  obtain ⟨star, rest, rfl, hstar⟩ := exists_cons_of_head? hhead
  have hrest : rest <:+ Located.ofString text :=
    ((List.suffix_cons star rest).trans (List.suffix_cons c _)).trans h
  have hspot := spot_rest_rest h (by simp [hc]) (by simp [hstar])
  have hfind := find?_comment rest
  rw [skipComment, ← hspot, cutFrom_spot hrest, ok_bind, Lexeme.next.eq_def, if_neg (by simp [hc]),
    if_neg (by simp [hc])]
  simp only [hc, hstar, and_self, if_true]
  cases hclose : Lexeme.closeComment rest with
  | none =>
    rw [hclose, Option.map_none, Option.map_eq_none_iff] at hfind
    rw [hfind]
    rfl
  | some p =>
    rw [hclose, Option.map_some, Option.map_eq_some_iff] at hfind
    obtain ⟨n, hn, hsize⟩ := hfind
    obtain rfl := Lexeme.closeComment_append hclose
    rw [hn]
    simp only [Except.map, faultless_ok, spot_append hrest, ← hsize, Nat.add_assoc]

theorem skipInterpolation_cons {c brace : Located} {rest : List Located}
    (h : c :: brace :: rest <:+ Located.ofString text) (hc : c.char.toNat ≤ 127)
    (hbrace : brace.char = '{') :
    skipInterpolation text c.offset =
      .ok (spot text (Prelude.afterInterpolation (brace :: rest))) := by
  have hrest : rest <:+ Located.ofString text :=
    ((List.suffix_cons brace rest).trans (List.suffix_cons c _)).trans h
  have hspot := spot_rest_rest h hc (by simp [hbrace])
  have hfind := find?_singleton '}' (runs_spot hrest)
  have hafter : Prelude.afterInterpolation (brace :: rest) =
      (rest.dropWhile fun d => d.char ≠ '}').tail := by
    simp [Prelude.afterInterpolation, hbrace]
  rw [skipInterpolation, ← hspot, cutFrom_spot hrest, ok_bind, hafter]
  cases hclose : rest.find? fun d => d.char = '}' with
  | none =>
    rw [hclose, Option.map_none, Option.map_eq_none_iff] at hfind
    have hnone : (rest.dropWhile fun d => d.char ≠ '}') = [] :=
      List.dropWhile_eq_nil_iff.2 (by simpa using hclose)
    rw [show "\x7d" = String.singleton '}' from rfl, hfind, hnone]
    rfl
  | some close =>
    rw [hclose, Option.map_some, Option.map_eq_some_iff] at hfind
    obtain ⟨n, hn, hoffset⟩ := hfind
    obtain ⟨hchar, before, after, rfl, hbefore⟩ := List.find?_eq_some_iff_append.1 hclose
    rw [decide_eq_true_eq] at hchar
    have hdrop : ((before ++ close :: after).dropWhile fun d => d.char ≠ '}') = close :: after := by
      rw [List.dropWhile_append_of_pos (by simpa using hbefore)]
      simp [hchar]
    rw [show "\x7d" = String.singleton '}' from rfl, hn, hdrop, List.tail_cons,
      spot_rest ((List.suffix_append before _).trans hrest), stop_eq_of_ascii (by simp [hchar]),
      ← hoffset]

/-! ## Units -/

theorem next_suffix {c : Located} {rest : List Located} {p : Lexeme × List Located}
    (h : Lexeme.next c rest = .ok p) : p.2 <:+ rest := by
  obtain ⟨body, _, hrest⟩ := Lexeme.next_eq_cons h
  exact ⟨body, hrest⟩

theorem next_of_escape {c : Located} (rest : List Located) (hc : c.char = '\\') :
    Lexeme.next c rest = .ok (⟨.escape, c :: rest.take 1⟩, rest.tail) := by
  cases rest <;> simp [Lexeme.next, hc]

theorem next_of_plain {c : Located} {rest : List Located} (hslash : c.char ≠ '\\')
    (hquote : ¬(c.char = '"' ∨ c.char = '\''))
    (hcomment : ¬(c.char = '/' ∧ rest.head?.map Located.char = some '*')) :
    Lexeme.next c rest = .ok (⟨.plain, [c]⟩, rest) := by
  cases rest with
  | nil => simp [Lexeme.next, hslash, hquote]
  | cons d rest =>
    have hmark : ¬(c.char = '/' ∧ d.char = '*') := by simpa using hcomment
    simp only [Lexeme.next, if_neg hslash, if_neg hquote, if_neg hmark]

theorem kind_of_quoted {c : Located} {rest after : List Located} {l : Lexeme}
    (hc : c.char = '"' ∨ c.char = '\'') (h : Lexeme.next c rest = .ok (l, after)) :
    l.kind = .quoted := by
  have hslash : c.char ≠ '\\' := by rcases hc with hc | hc <;> simp [hc]
  rw [Lexeme.next.eq_def, if_neg hslash, if_pos hc] at h
  split at h
  · obtain ⟨rfl, _⟩ := by simpa using h
    rfl
  · simp at h

theorem kind_of_comment {c star : Located} {rest after : List Located} {l : Lexeme}
    (hc : c.char = '/') (hstar : star.char = '*')
    (h : Lexeme.next c (star :: rest) = .ok (l, after)) : l.kind = .comment := by
  rw [Lexeme.next.eq_def, if_neg (by simp [hc]), if_neg (by simp [hc])] at h
  simp only [hc, hstar, and_self, if_true] at h
  split at h
  · obtain ⟨rfl, _⟩ := by simpa using h
    rfl
  · simp at h

theorem kind_eq_comment_iff {c : Located} {rest after : List Located} {l : Lexeme}
    (h : Lexeme.next c rest = .ok (l, after)) :
    l.kind = .comment ↔ c.char = '/' ∧ rest.head?.map Located.char = some '*' := by
  by_cases hslash : c.char = '\\'
  · rw [next_of_escape rest hslash] at h
    obtain ⟨rfl, _⟩ := by simpa using h
    simp [hslash]
  by_cases hquote : c.char = '"' ∨ c.char = '\''
  · rw [kind_of_quoted hquote h]
    rcases hquote with hquote | hquote <;> simp [hquote]
  by_cases hcomment : c.char = '/' ∧ rest.head?.map Located.char = some '*'
  · cases rest with
    | nil => simp at hcomment
    | cons star rest =>
      rw [kind_of_comment hcomment.1 (by simpa using hcomment.2) h]
      simpa using hcomment
  · rw [next_of_plain hslash hquote hcomment] at h
    obtain ⟨rfl, _⟩ := by simpa using h
    simpa using hcomment

/-- A unit that stands in a text goes from its first character to what follows. -/
theorem span_next {c : Located} {rest after : List Located} {l : Lexeme}
    (h : c :: rest <:+ Located.ofString text) (hnext : Lexeme.next c rest = .ok (l, after)) :
    l.span = ⟨c.offset, spot text after⟩ := by
  obtain ⟨hstart, _, _, hafter⟩ := Lexeme.runs_next hnext (runs_spot h)
  rw [spot, hafter.startOf_eq, ← spot_cons text c rest, ← hstart]

theorem skip?_of_quoted {c : Located} {rest : List Located} {p : Lexeme × List Located}
    (h : c :: rest <:+ Located.ofString text) (hc : c.char = '"' ∨ c.char = '\'')
    (hnext : Lexeme.next c rest = .ok p) :
    p.1.skip? = some ⟨.quoted, c.offset, spot text p.2⟩ := by
  have hkind := kind_of_quoted hc hnext
  rw [Lexeme.skip?, if_pos (.inl hkind), hkind, span_next h hnext]

theorem skip?_of_comment {c : Located} {rest : List Located} {p : Lexeme × List Located}
    (h : c :: rest <:+ Located.ofString text)
    (hc : c.char = '/' ∧ rest.head?.map Located.char = some '*')
    (hnext : Lexeme.next c rest = .ok p) :
    p.1.skip? = some ⟨.comment, c.offset, spot text p.2⟩ := by
  have hkind := (kind_eq_comment_iff hnext).2 hc
  rw [Lexeme.skip?, if_pos (.inr hkind), hkind, span_next h hnext]

/-! ## The ends of statements -/

/-- Notes a unit down in front of what was skipped behind it, if it is a string or a comment. -/
def note {β : Type} (l : Lexeme) (q : List Lexeme.Skip × β) : List Lexeme.Skip × β :=
  (l.skip?.toList ++ q.1, q.2)

theorem note_filterMap {β : Type} (l : Lexeme) (ls : List Lexeme) (b : β) :
    note l (ls.filterMap Lexeme.skip?, b) = ((l :: ls).filterMap Lexeme.skip?, b) := by
  cases hskip : l.skip? <;> simp [note, hskip]

theorem map_note_of_none {β : Type} {l : Lexeme} (h : l.skip? = none)
    (x : Checked ParseError (List Lexeme.Skip × β)) : x.map (note l) = x := by
  cases x with
  | error e => rfl
  | ok q => simp [Except.map, note, h]

theorem map_note_of_some {β : Type} {l : Lexeme} {s : Lexeme.Skip} (h : l.skip? = some s)
    (x : Checked ParseError (List Lexeme.Skip × β)) :
    (x >>= fun q => .ok (s :: q.1, q.2)) = x.map (note l) := by
  cases x with
  | error e => rfl
  | ok q => simp [Except.map, note, h]

theorem map_snd_note {ε β : Type} (l : Lexeme) (x : Checked ε (List Lexeme.Skip × β)) :
    (x.map (note l)).map Prod.snd = x.map Prod.snd := by
  cases x <;> rfl

theorem bind_eq_map_bind {ε α β γ : Type} {f : α → Checked ε γ} {g : α → Checked ε β} {k : β → γ}
    (h : ∀ a, f a = (g a).map k) (x : Checked ε α) : (x >>= f) = (x >>= g).map k := by
  cases x with
  | error e => rfl
  | ok a => exact h a

theorem map_snd_cons {ε β : Type} (s : Lexeme.Skip) (x : Checked ε (List Lexeme.Skip × β)) :
    (x >>= fun q => .ok (s :: q.1, q.2)).map Prod.snd = x.map Prod.snd := by
  cases x <;> rfl

theorem scanSkips_of_none (depth : Nat) {i : Nat} (h : byte? text i = none) :
    scanSkips text depth i = .ok ([], text.utf8ByteSize, none) := by
  rw [scanSkips]
  split
  · rfl
  · simp_all

theorem scanSkips_of_some (depth : Nat) {i : Nat} {b : Char} (h : byte? text i = some b) :
    scanSkips text depth i =
      if b = '\\' then scanSkips text depth (i + 2)
      else if b = '"' ∨ b = '\'' then do
        let j ← onward text i (← skipString text i)
        let (skips, found) ← scanSkips text depth j
        .ok (⟨.quoted, i, j⟩ :: skips, found)
      else if b = '/' ∧ byte? text (i + 1) = some '*' then do
        let j ← onward text i (← skipComment text i)
        let (skips, found) ← scanSkips text depth j
        .ok (⟨.comment, i, j⟩ :: skips, found)
      else if (b = '#' ∨ b = '@') ∧ byte? text (i + 1) = some '{' then do
        let j ← onward text i (← skipInterpolation text i)
        scanSkips text depth j
      else if depth = 0 ∧ Prelude.isTerminator b then .ok ([], i, some b)
      else scanSkips text (Prelude.depthAfter depth b) (i + 1) := by
  rw [scanSkips]
  split
  · simp_all
  · next b' hb' =>
    obtain rfl : b = b' := by simpa [h] using hb'
    rfl

/-- Noting the strings and comments down changes nothing else. -/
theorem scanPrelude_eq_map_scanSkips (depth i : Nat) :
    scanPrelude text depth i = (scanSkips text depth i).map Prod.snd := by
  fun_induction scanPrelude text depth i with
  | case1 depth i h => rw [scanSkips_of_none depth h]; rfl
  | case2 depth i h ih => rw [scanSkips_of_some depth h, if_pos rfl, ih]
  | case3 depth i b h hslash hquote ih =>
    rw [scanSkips_of_some depth h, if_neg hslash, if_pos hquote]
    refine bind_eq_map_bind (fun behind => ?_) _
    refine bind_eq_map_bind (fun j => ?_) _
    exact (ih j.1 j.2).trans (map_snd_cons _ _).symm
  | case4 depth i b h hslash hquote hcomment ih =>
    rw [scanSkips_of_some depth h, if_neg hslash, if_neg hquote, if_pos hcomment]
    refine bind_eq_map_bind (fun behind => ?_) _
    refine bind_eq_map_bind (fun j => ?_) _
    exact (ih j.1 j.2).trans (map_snd_cons _ _).symm
  | case5 depth i b h hslash hquote hcomment hinter ih =>
    rw [scanSkips_of_some depth h, if_neg hslash, if_neg hquote, if_neg hcomment, if_pos hinter]
    refine bind_eq_map_bind (fun behind => ?_) _
    refine bind_eq_map_bind (fun j => ?_) _
    exact ih j.1 j.2
  | case6 depth i b h hslash hquote hcomment hinter hterm =>
    rw [scanSkips_of_some depth h, if_neg hslash, if_neg hquote, if_neg hcomment, if_neg hinter,
      if_pos hterm]
    rfl
  | case7 depth i b h hslash hquote hcomment hinter hterm ih =>
    rw [scanSkips_of_some depth h, if_neg hslash, if_neg hquote, if_neg hcomment, if_neg hinter,
      if_neg hterm, ih]

theorem glides_scanSkips (depth : Nat) : Glides text (scanSkips text depth) := by
  intro i b hb hlt
  have hne : ∀ k : Char, k.toNat ≤ 127 → b ≠ k := fun k => ne_of_ascii hlt
  rw [scanSkips_of_some depth hb]
  simp [hne, Prelude.isTerminator, Prelude.depthAfter]

theorem scanSkips_cons {depth : Nat} {c : Located} {rest : List Located}
    (h : c :: rest <:+ Located.ofString text)
    (hterm : ¬(depth = 0 ∧ Prelude.isTerminator c.char = true))
    (hinter : Prelude.opensInterpolation c.char rest = false) :
    scanSkips text depth c.offset =
      faultless (Lexeme.next c rest) >>= fun p =>
        (scanSkips text (if p.1.kind = .plain then Prelude.depthAfter depth c.char else depth)
          (spot text p.2)).map (note p.1) := by
  have hglides : Glides text (scanSkips text depth) := glides_scanSkips depth
  rcases Nat.lt_or_ge 127 c.char.toNat with hc | hc
  · have hne : ∀ k : Char, k.toNat ≤ 127 → c.char ≠ k := fun k => ne_of_ascii hc
    rw [hglides.start_eq h hc, next_of_plain (by simp [hne]) (by simp [hne]) (by simp [hne]),
      faultless_ok, ok_bind, map_note_of_none rfl]
    simp [Prelude.depthAfter, hne]
  rw [scanSkips_of_some depth (byte?_of_ascii h hc)]
  split
  · next hslash =>
    have hend : scanSkips text depth (text.utf8ByteSize + 1) =
        scanSkips text depth text.utf8ByteSize := by
      rw [scanSkips_of_none depth (byte?_size text),
        scanSkips_of_none depth (byte?_eq_none_iff.2 (Nat.le_succ _))]
    rw [hglides.escape_eq hend h hc, next_of_escape rest hslash, faultless_ok, ok_bind,
      map_note_of_none rfl]
    rfl
  split
  · next hquote =>
    rw [skipString_cons h hquote]
    cases hnext : Lexeme.next c rest with
    | error e => rfl
    | ok p =>
      have hlater := lt_spot h (next_suffix hnext)
      simp only [Except.map, faultless_ok, ok_bind, onward_of_lt hlater,
        kind_of_quoted hquote hnext, reduceCtorEq, if_false]
      exact map_note_of_some (skip?_of_quoted h hquote hnext) _
  simp only [byte?_second_eq_iff h hc (show '*'.toNat ≤ 127 by decide),
    byte?_second_eq_iff h hc (show '{'.toNat ≤ 127 by decide)]
  split
  · next hcomment =>
    rw [skipComment_cons h hcomment]
    cases hnext : Lexeme.next c rest with
    | error e => rfl
    | ok p =>
      have hlater := lt_spot h (next_suffix hnext)
      simp only [Except.map, faultless_ok, ok_bind, onward_of_lt hlater,
        (kind_eq_comment_iff hnext).2 hcomment, reduceCtorEq, if_false]
      exact map_note_of_some (skip?_of_comment h hcomment hnext) _
  · next hslash hquote hcomment =>
    have hopens : ¬((c.char = '#' ∨ c.char = '@') ∧ rest.head?.map Located.char = some '{') := by
      simpa [Prelude.opensInterpolation] using hinter
    rw [if_neg hopens, next_of_plain hslash hquote hcomment, ← stop_eq_of_ascii hc, ← spot_rest h,
      faultless_ok, ok_bind, map_note_of_none rfl]
    rfl

theorem scanSkips_terminator {c : Located} {rest : List Located}
    (h : c :: rest <:+ Located.ofString text) (hterm : Prelude.isTerminator c.char = true) :
    scanSkips text 0 c.offset = .ok ([], c.offset, some c.char) := by
  have hc : c.char = ';' ∨ c.char = '{' ∨ c.char = '}' := by
    simpa [Prelude.isTerminator, or_assoc] using hterm
  have hascii : c.char.toNat ≤ 127 := by rcases hc with hc | hc | hc <;> simp [hc]
  rw [scanSkips_of_some 0 (byte?_of_ascii h hascii)]
  rcases hc with hc | hc | hc <;> simp [hc, Prelude.isTerminator]

theorem scanSkips_interpolation {depth : Nat} {c : Located} {rest : List Located}
    (h : c :: rest <:+ Located.ofString text)
    (hinter : Prelude.opensInterpolation c.char rest = true) :
    scanSkips text depth c.offset =
      scanSkips text depth (spot text (Prelude.afterInterpolation rest)) := by
  obtain ⟨hc, hhead⟩ : (c.char = '#' ∨ c.char = '@') ∧ rest.head?.map Located.char = some '{' := by
    simpa [Prelude.opensInterpolation] using hinter
  have hascii : c.char.toNat ≤ 127 := by rcases hc with hc | hc <;> simp [hc]
  have hbyte := (byte?_second_eq_iff h hascii (by decide)).2 hhead
  obtain ⟨brace, rest, rfl, hbrace⟩ := exists_cons_of_head? hhead
  have hsuffix : Prelude.afterInterpolation (brace :: rest) <:+ brace :: rest :=
    (List.tail_suffix _).trans (List.dropWhile_suffix _)
  rw [scanSkips_of_some depth (byte?_of_ascii h hascii), skipInterpolation_cons h hascii hbrace,
    ok_bind, onward_of_lt (lt_spot h hsuffix), ok_bind]
  rcases hc with hc | hc <;> simp [hc, hbyte]

/-- The strings and comments of the units are skipped, up to where the characters say. -/
theorem scanSkips_spot {depth : Nat} {cs : List Located} (h : cs <:+ Located.ofString text) :
    scanSkips text depth (spot text cs) =
      faultless ((Prelude.skipUnits depth cs).map fun (ls, stop) =>
        (ls.filterMap Lexeme.skip?, spot text stop, stop.head?.map Located.char)) := by
  fun_induction Prelude.skipUnits depth cs with
  | case1 => simp [scanSkips_of_none, Except.map]
  | case2 depth c rest hterm =>
    obtain ⟨rfl, hterm⟩ := hterm
    rw [spot_cons, scanSkips_terminator h hterm]
    rfl
  | case3 depth c rest hterm hinter ih =>
    have hrest := (List.suffix_cons c rest).trans h
    have hsuffix : Prelude.afterInterpolation rest <:+ Located.ofString text :=
      ((List.tail_suffix _).trans (List.dropWhile_suffix _)).trans hrest
    rw [spot_cons, scanSkips_interpolation h hinter, ih hsuffix]
  | case4 depth c rest hterm hinter e hnext =>
    rw [spot_cons, scanSkips_cons h hterm (by simpa using hinter), hnext]
    rfl
  | case5 depth c rest hterm hinter l after hnext _ ih =>
    have hsuffix := ((next_suffix hnext).trans (List.suffix_cons c rest)).trans h
    simp only [dite_eq_ite] at ih
    rw [spot_cons, scanSkips_cons h hterm (by simpa using hinter), hnext, faultless_ok, ok_bind,
      ih hsuffix]
    cases Prelude.skipUnits (if l.kind = .plain then Prelude.depthAfter depth c.char else depth)
      after with
    | error e => rfl
    | ok q => exact congrArg Except.ok (note_filterMap l q.1 _)

/-- A statement ends where the characters say, with the character that ends it. -/
theorem scanPrelude_spot {depth : Nat} {cs : List Located} (h : cs <:+ Located.ofString text) :
    scanPrelude text depth (spot text cs) =
      faultless ((Prelude.skip depth cs).map fun stop =>
        (spot text stop, stop.head?.map Located.char)) := by
  rw [scanPrelude_eq_map_scanSkips, scanSkips_spot h, Prelude.skip_eq_map_skipUnits]
  cases Prelude.skipUnits depth cs <;> rfl

/-! ## White space and names -/

theorem skipWhile_of_none (p : Char → Bool) {i : Nat} (h : byte? text i = none) :
    skipWhile text p i = i := by
  rw [skipWhile]
  split
  · rfl
  · simp_all

theorem skipWhile_of_some (p : Char → Bool) {i : Nat} {b : Char} (h : byte? text i = some b) :
    skipWhile text p i = if p b then skipWhile text p (i + 1) else i := by
  rw [skipWhile]
  split
  · simp_all
  · simp_all

theorem skipWhile_spot {p : Char → Bool} (hp : Coarse p) {cs : List Located}
    (h : cs <:+ Located.ofString text) :
    skipWhile text p (spot text cs) = spot text (cs.dropWhile fun c => p c.char) := by
  induction cs with
  | nil => simp [skipWhile_of_none]
  | cons c rest ih =>
    obtain ⟨b, hb, halike⟩ := byte?_cons h
    rw [spot_cons, skipWhile_of_some p hb, halike.map_eq hp, List.dropWhile_cons]
    split
    · next hc =>
      have hglides : 127 < c.char.toNat → Glides text (skipWhile text p) := by
        intro hlt i b hb hb'
        rw [skipWhile_of_some p hb, hp b c.char hb' hlt, if_pos hc]
      rw [← ih ((List.suffix_cons c rest).trans h)]
      rcases Nat.lt_or_ge 127 c.char.toNat with hlt | hle
      · exact (hglides hlt).second_eq h
      · rw [spot_rest h, stop_eq_of_ascii hle]
    · rw [spot_cons]

theorem coarse_isSpace : Coarse Text.isSpace := by
  have hfalse : ∀ c : Char, 127 < c.toNat → Text.isSpace c = false := by
    intro c hc
    have hne : ∀ k : Char, k.toNat ≤ 127 → c ≠ k := fun k => ne_of_ascii hc
    simp [Text.isSpace, hne]
  intro c d hc hd
  rw [hfalse c hc, hfalse d hd]

theorem coarse_isNameChar : Coarse Event.isNameChar := by
  intro c d hc hd
  simp [Event.isNameChar, hc, hd]

end SheetPolicy.Cursor
