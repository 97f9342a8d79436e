import Mathlib
import SheetPolicy.Options.Basic
import SheetPolicy.Toml.Reader

/-!
Tables in order. A table is a list of entries that rise by key, so that each key is there once and
two tables with the same values under all keys are one (`Table.Sorted.ext`). Setting a key keeps the
order, and so does laying one table over another, where the upper one wins (`Table.get?_overlay`).

A file is read into tables that are in order, at any depth (`Toml.ordered_of_parse?`).
-/

namespace SheetPolicy.Toml

namespace Table

/-- The keys rise. -/
def Sorted (t : Table) : Prop :=
  t.Pairwise fun a b => a.1 < b.1

/-! ## Looking up and setting keys -/

@[simp] theorem get?_nil (key : String) : get? [] key = none := rfl

theorem get?_cons (entry : String × Toml) (t : Table) (key : String) :
    get? (entry :: t) key = if entry.1 = key then some entry.2 else get? t key := by
  by_cases h : entry.1 = key
  · simp [get?, h]
  · simp [get?, h]

theorem get?_eq_none_of_lt {t : Table} {key : String} (h : ∀ e ∈ t, key < e.1) :
    get? t key = none := by
  induction t with
  | nil => rfl
  | cons entry t ih =>
    rw [get?_cons, if_neg (h entry List.mem_cons_self).ne']
    exact ih fun e he => h e (List.mem_cons_of_mem _ he)

/-- Setting a key changes the value of that key only. -/
theorem get?_insert (t : Table) (key : String) (value : Toml) (k : String) :
    (t.insert key value).get? k = if key = k then some value else t.get? k := by
  induction t with
  | nil => simp [insert, get?_cons]
  | cons entry t ih =>
    rw [insert]
    by_cases hlt : entry.1 < key
    · rw [if_pos hlt, get?_cons, get?_cons, ih]
      by_cases hk : entry.1 = k
      · rw [if_pos hk, if_pos hk, if_neg (hk ▸ hlt.ne')]
      · rw [if_neg hk, if_neg hk]
    · rw [if_neg hlt]
      by_cases heq : entry.1 = key
      · rw [if_pos heq, get?_cons, get?_cons, heq]
        by_cases hk : key = k
        · rw [if_pos hk, if_pos hk]
        · rw [if_neg hk, if_neg hk, if_neg hk]
      · rw [if_neg heq, get?_cons]

theorem mem_insert {t : Table} {key : String} {value : Toml} {e : String × Toml}
    (h : e ∈ t.insert key value) : e = (key, value) ∨ e ∈ t := by
  induction t with
  | nil => exact .inl (List.mem_singleton.1 h)
  | cons entry t ih =>
    rw [insert] at h
    split at h
    · rcases List.mem_cons.1 h with rfl | h
      · exact .inr List.mem_cons_self
      · exact (ih h).imp_right (List.mem_cons_of_mem _)
    · split at h
      · rcases List.mem_cons.1 h with rfl | h
        · exact .inl rfl
        · exact .inr (List.mem_cons_of_mem _ h)
      · rcases List.mem_cons.1 h with rfl | h
        · exact .inl rfl
        · exact .inr h

theorem Sorted.insert {t : Table} (h : t.Sorted) (key : String) (value : Toml) :
    (t.insert key value).Sorted := by
  induction t with
  | nil => exact List.pairwise_singleton _ _
  | cons entry t ih =>
    obtain ⟨hfirst, hrest⟩ := List.pairwise_cons.1 h
    rw [Table.insert]
    by_cases hlt : entry.1 < key
    · rw [if_pos hlt]
      refine .cons (fun e he => ?_) (ih hrest)
      rcases mem_insert he with rfl | he
      · exact hlt
      · exact hfirst e he
    · rw [if_neg hlt]
      by_cases heq : entry.1 = key
      · rw [if_pos heq]
        exact .cons (heq ▸ hfirst) hrest
      · have hgt : key < entry.1 := lt_of_le_of_ne (not_lt.1 hlt) (Ne.symm heq)
        rw [if_neg heq]
        refine .cons (fun e he => ?_) h
        rcases List.mem_cons.1 he with rfl | he
        · exact hgt
        · exact hgt.trans (hfirst e he)

theorem Sorted.get?_eq_some_iff {t : Table} (h : t.Sorted) {key : String} {value : Toml} :
    t.get? key = some value ↔ (key, value) ∈ t := by
  induction t with
  | nil => simp
  | cons entry t ih =>
    obtain ⟨hfirst, hrest⟩ := List.pairwise_cons.1 h
    rw [get?_cons, List.mem_cons]
    by_cases heq : entry.1 = key
    · subst heq
      have hnot : (entry.1, value) ∉ t := fun hmem => (hfirst _ hmem).false
      simp [hnot, Prod.ext_iff, eq_comm]
    · have hne : (key, value) ≠ entry := fun h => heq (h ▸ rfl)
      simp [heq, hne, ih hrest]

theorem Sorted.nodup {t : Table} (h : t.Sorted) : t.Nodup :=
  h.imp fun hlt heq => (heq ▸ hlt).false

/-- A table in order is known by its values. -/
theorem Sorted.ext {s t : Table} (hs : s.Sorted) (ht : t.Sorted)
    (h : ∀ key, s.get? key = t.get? key) : s = t := by
  have hmem : ∀ e, e ∈ s ↔ e ∈ t := fun e => by
    rw [← hs.get?_eq_some_iff, ← ht.get?_eq_some_iff, h]
  have hperm : s.Perm t := (List.perm_ext_iff_of_nodup hs.nodup ht.nodup).2 hmem
  exact hperm.eq_of_pairwise (fun _ _ _ _ hab hba => absurd hba hab.asymm) hs ht

/-! ## Laying tables over one another -/

/-- Sets all keys of `top` in `base`. -/
def overlay (top base : Table) : Table :=
  top.foldl (fun t entry => t.insert entry.1 entry.2) base

theorem Sorted.overlay {base : Table} (h : base.Sorted) (top : Table) :
    (top.overlay base).Sorted := by
  induction top generalizing base with
  | nil => exact h
  | cons entry top ih => exact ih (h.insert entry.1 entry.2)

theorem get?_overlay {top : Table} (h : top.Sorted) (base : Table) (key : String) :
    (top.overlay base).get? key = (top.get? key).or (base.get? key) := by
  induction top generalizing base with
  | nil => rfl
  | cons entry top ih =>
    obtain ⟨hfirst, hrest⟩ := List.pairwise_cons.1 h
    have hstep : overlay (entry :: top) base = overlay top (base.insert entry.1 entry.2) := rfl
    rw [hstep, ih hrest, get?_insert, get?_cons]
    by_cases heq : entry.1 = key
    · subst heq
      rw [if_pos rfl, if_pos rfl, get?_eq_none_of_lt hfirst]
      rfl
    · rw [if_neg heq, if_neg heq]

theorem mem_overlay {top base : Table} {e : String × Toml} (h : e ∈ top.overlay base) :
    e ∈ top ∨ e ∈ base := by
  induction top generalizing base with
  | nil => exact .inr h
  | cons entry top ih =>
    rcases ih h with h | h
    · exact .inl (List.mem_cons_of_mem _ h)
    · exact (mem_insert h).imp_left fun h => List.mem_cons.2 (.inl h)

theorem sorted_ofEntries (entries : List (String × Toml)) : (ofEntries entries).Sorted :=
  Sorted.overlay List.Pairwise.nil entries

theorem mem_ofEntries {entries : List (String × Toml)} {e : String × Toml}
    (h : e ∈ ofEntries entries) : e ∈ entries :=
  (mem_overlay h).resolve_right (List.not_mem_nil)

end Table

/-- All tables of a value are in order, at any depth. -/
inductive Ordered : Toml → Prop
  | string (text : String) : Ordered (.string text)
  | integer (n : Int) : Ordered (.integer n)
  | float (x : Binary64) : Ordered (.float x)
  | boolean (b : Bool) : Ordered (.boolean b)
  | datetime (text : String) : Ordered (.datetime text)
  | array {elements : List Toml} : (∀ v ∈ elements, Ordered v) → Ordered (.array elements)
  | table {t : Table} : t.Sorted → (∀ e ∈ t, Ordered e.2) → Ordered (.table t)

theorem Ordered.ofEntries {entries : List (String × Toml)} (h : ∀ e ∈ entries, e.2.Ordered) :
    (Toml.table (Table.ofEntries entries)).Ordered :=
  .table (Table.sorted_ofEntries entries) fun e he => h e (Table.mem_ofEntries he)

theorem Ordered.of_get? {t : Table} (h : (Toml.table t).Ordered) {key : String} {v : Toml}
    (hv : t.get? key = some v) : v.Ordered := by
  cases h with
  | table hsorted hvalues => exact hvalues _ (hsorted.get?_eq_some_iff.1 hv)

theorem Ordered.sorted {t : Table} (h : (Toml.table t).Ordered) : t.Sorted := by
  cases h with
  | table hsorted _ => exact hsorted

/-! ## Tables in the making

Entries are kept as they come and put in order at the end, so the order to keep here is that of the
values that have been read. -/

/-- The values in a draft are in order. -/
inductive Draft.Ordered : Draft → Prop
  | value {v : Toml} : v.Ordered → Draft.Ordered (.value v)
  | table {origin : Origin} {entries : Entries} :
      (∀ e ∈ entries, Draft.Ordered e.2) → Draft.Ordered (.table origin entries)
  | tables {elements : List Entries} :
      (∀ entries ∈ elements, ∀ e ∈ entries, Draft.Ordered e.2) → Draft.Ordered (.tables elements)

namespace Draft

def Entries.Ordered (entries : Entries) : Prop :=
  ∀ e ∈ entries, e.2.Ordered

theorem Entries.ordered_nil : Entries.Ordered [] :=
  fun _ he => absurd he List.not_mem_nil

theorem Entries.Ordered.set {entries : Entries} (h : entries.Ordered) (key : String)
    {draft : Draft} (hdraft : draft.Ordered) : (entries.set key draft).Ordered := by
  intro e he
  rcases List.mem_cons.1 he with rfl | he
  · exact hdraft
  · exact h e (List.mem_filter.1 he).1

theorem Entries.Ordered.of_get? {entries : Entries} (h : entries.Ordered) {key : String}
    {draft : Draft} (hget : entries.get? key = some draft) : draft.Ordered := by
  obtain ⟨e, he, rfl⟩ := Option.map_eq_some_iff.1 hget
  exact h e (List.mem_of_find?_eq_some he)

theorem Ordered.entries {origin : Origin} {entries : Entries}
    (h : (Draft.table origin entries).Ordered) : entries.Ordered := by
  cases h with
  | table h => exact h

theorem Ordered.elements {elements : List Entries} (h : (Draft.tables elements).Ordered) :
    ∀ entries ∈ elements, entries.Ordered := by
  cases h with
  | tables h => exact h

theorem satisfies_none {α : Type} {P : α → Prop} : SatisfiesM P (none : Option α) :=
  SatisfiesM_Option_eq.2 fun _ h => absurd h.symm (Option.some_ne_none _)

/-- What holds of a change at the end of a path holds of the change to the whole. -/
theorem satisfies_descend {α : Type} {P : α → Prop} {isDotted : Bool}
    {f : Origin → Entries → Option (α × Entries)}
    (hf : ∀ origin entries, Entries.Ordered entries →
      SatisfiesM (fun r => P r.1 ∧ r.2.Ordered) (f origin entries))
    (path : List String) (origin : Origin) {entries : Entries} (h : entries.Ordered) :
    SatisfiesM (fun r => P r.1 ∧ r.2.Ordered) (descend isDotted f path origin entries) := by
  induction path generalizing origin entries with
  | nil => exact hf origin entries h
  | cons key path ih =>
    rw [descend]
    split
    · exact (ih _ Entries.ordered_nil).bind fun r hr =>
        .pure ⟨hr.1, h.set key (.table hr.2)⟩
    · exact satisfies_none
    · rename_i inner hget
      split
      · exact satisfies_none
      · exact (ih _ (h.of_get? hget).entries).bind fun r hr =>
          .pure ⟨hr.1, h.set key (.table hr.2)⟩
    · exact satisfies_none
    · rename_i last earlier hget
      have hall := (h.of_get? hget).elements
      exact (ih _ (hall last List.mem_cons_self)).bind fun r hr =>
        .pure ⟨hr.1, h.set key (.tables (List.forall_mem_cons.2
          ⟨hr.2, fun e he => hall e (List.mem_cons_of_mem _ he)⟩))⟩

theorem satisfies_insert (path : List String) (key : String) {v : Toml} (hv : v.Ordered)
    {entries : Entries} (h : entries.Ordered) :
    SatisfiesM Entries.Ordered (insert path key v entries) := by
  refine (satisfies_descend (P := fun _ => True) ?_ path .header h).bind fun r hr => .pure hr.2
  intro origin target htarget
  split
  · exact satisfies_none
  · exact .pure ⟨trivial, htarget.set key (.value hv)⟩

theorem satisfies_foldlM_insert {pairs : List ((List String × String) × Toml)}
    (hpairs : ∀ pair ∈ pairs, pair.2.Ordered) :
    SatisfiesM Entries.Ordered
      (pairs.foldlM (fun entries pair => insert pair.1.1 pair.1.2 pair.2 entries) []) :=
  List.satisfiesM_foldlM Entries.ordered_nil fun _ h pair hmem =>
    satisfies_insert _ _ (hpairs pair hmem) h

theorem tomlEntries_eq_map (entries : Entries) :
    tomlEntries entries = entries.map fun e => (e.1, e.2.toToml) := by
  induction entries with
  | nil => rw [tomlEntries, List.map_nil]
  | cons e entries ih => rw [tomlEntries, ih, List.map_cons]

theorem tomlElements_eq_map (elements : List Entries) :
    tomlElements elements =
      elements.map fun entries => .table (Table.ofEntries (tomlEntries entries)) := by
  induction elements with
  | nil => rw [tomlElements, List.map_nil]
  | cons entries elements ih => rw [tomlElements, ih, List.map_cons]

theorem ordered_table_tomlEntries {entries : Entries} (h : ∀ e ∈ entries, e.2.toToml.Ordered) :
    (Toml.table (Table.ofEntries (tomlEntries entries))).Ordered := by
  refine .ofEntries fun e he => ?_
  rw [tomlEntries_eq_map] at he
  obtain ⟨own, hown, rfl⟩ := List.mem_map.1 he
  exact h own hown

theorem Ordered.toToml {draft : Draft} (h : draft.Ordered) : draft.toToml.Ordered := by
  induction h with
  | value h =>
    rw [Draft.toToml]
    exact h
  | table _ ih =>
    rw [Draft.toToml]
    exact ordered_table_tomlEntries ih
  | tables _ ih =>
    rw [Draft.toToml, tomlElements_eq_map]
    refine .array fun v hv => ?_
    obtain ⟨entries, hmem, rfl⟩ := List.mem_map.1 (List.mem_reverse.1 hv)
    exact ordered_table_tomlEntries (ih entries hmem)

end Draft

/-- The values read up to some line are in order. -/
structure Outline.Ordered (o : Outline) : Prop where
  placed : o.placed.Ordered
  current : o.current.Ordered

namespace Outline

open Draft

variable {o : Outline}

theorem Ordered.place (h : o.Ordered) : SatisfiesM Entries.Ordered o.place := by
  rw [Outline.place]
  split
  · exact .pure h.current
  · refine (satisfies_descend (P := fun _ => True) ?_ _ .header h.placed).bind
      fun r hr => .pure hr.2
    intro origin target htarget
    split
    · split
      · exact .pure ⟨trivial, htarget.set _ (.tables (List.forall_mem_singleton.2 h.current))⟩
      · rename_i hget
        exact .pure ⟨trivial, htarget.set _ (.tables (List.forall_mem_cons.2
          ⟨h.current, (htarget.of_get? hget).elements⟩))⟩
      · exact satisfies_none
    · exact .pure ⟨trivial, htarget.set _ (.table h.current)⟩

theorem Ordered.openTable (h : o.Ordered) (path : List String) :
    SatisfiesM Outline.Ordered (o.openTable path) := by
  refine h.place.bind fun placed hplaced => ?_
  refine SatisfiesM.trivial.bind fun last _ => ?_
  obtain ⟨parents, key⟩ := last
  refine (satisfies_descend (P := Entries.Ordered) ?_ parents .header hplaced).bind
    fun r hr => .pure ⟨hr.2, hr.1⟩
  intro origin target htarget
  split
  · exact .pure ⟨Entries.ordered_nil, htarget⟩
  · rename_i hget
    exact .pure ⟨(htarget.of_get? hget).entries, htarget⟩
  · exact satisfies_none

theorem Ordered.openElement (h : o.Ordered) (path : List String) :
    SatisfiesM Outline.Ordered (o.openElement path) := by
  refine h.place.bind fun placed hplaced => ?_
  refine SatisfiesM.trivial.bind fun last _ => ?_
  obtain ⟨parents, key⟩ := last
  refine (satisfies_descend (P := fun _ => True) ?_ parents .header hplaced).bind
    fun r hr => .pure ⟨hr.2, Entries.ordered_nil⟩
  intro origin target htarget
  split
  · exact .pure ⟨trivial, htarget⟩
  · exact .pure ⟨trivial, htarget⟩
  · exact satisfies_none

theorem Ordered.set (h : o.Ordered) (path : List String) (key : String) {v : Toml}
    (hv : v.Ordered) : SatisfiesM Outline.Ordered (o.set path key v) :=
  (satisfies_insert path key hv h.current).bind fun _ hcurrent => .pure ⟨h.placed, hcurrent⟩

end Outline

end SheetPolicy.Toml

/-! ## Scanners and their results -/

namespace SheetPolicy.Scanner

variable {α : Type} {P : α → Prop} {s t : Scanner α}

theorem satisfies_iff : SatisfiesM P s ↔ ∀ cs a rest, s cs = some (a, rest) → P a := by
  simp only [SatisfiesM_StateT_eq, SatisfiesM_Option_eq, Prod.forall]
  rfl

theorem satisfies_failure : SatisfiesM P (failure : Scanner α) :=
  satisfies_iff.2 fun _ _ _ h => absurd h.symm (Option.some_ne_none _)

/-- A result that is not looked at matters to nothing. -/
theorem satisfies_skip {β : Type} {first : Scanner β} {next : β → Scanner α}
    (h : ∀ b, SatisfiesM P (next b)) : SatisfiesM P (first >>= next) :=
  SatisfiesM.trivial.bind fun b _ => h b

theorem satisfies_orElse (hs : SatisfiesM P s) (ht : SatisfiesM P t) :
    SatisfiesM P (s <|> t) := by
  rw [satisfies_iff] at *
  intro cs a rest h
  change (s cs <|> t cs) = some (a, rest) at h
  cases hfirst : s cs with
  | none =>
    rw [hfirst] at h
    exact ht cs a rest h
  | some r =>
    rw [hfirst] at h
    exact hs cs a rest (hfirst.trans h)

theorem satisfies_optional (hs : SatisfiesM P s) :
    SatisfiesM (fun r => ∀ a ∈ r, P a) (optional s) :=
  satisfies_orElse (hs.map fun ha _ hb => Option.some_inj.1 hb ▸ ha)
    (.pure fun _ h => absurd h (Option.not_mem_none _))

/-- What a round keeps, all rounds keep. -/
theorem satisfies_iterate {step : α → Scanner α} (hstep : ∀ a, P a → SatisfiesM P (step a))
    {a : α} (ha : P a) : SatisfiesM P (iterate step a) := by
  rw [satisfies_iff]
  intro cs b rest h
  fun_induction iterate step a cs with
  | case1 a cs hnone =>
    cases h
    exact ha
  | case2 a cs next remaining hsome hlt ih =>
    exact ih (satisfies_iff.1 (hstep a ha) _ _ _ hsome) h
  | case3 a cs next remaining hsome hlt =>
    cases h
    exact ha

theorem satisfies_many (hs : SatisfiesM P s) : SatisfiesM (fun r => ∀ a ∈ r, P a) (many s) := by
  have hrounds : SatisfiesM (fun r => ∀ a ∈ r, P a)
      (iterate (fun results => (· :: results) <$> s) []) :=
    satisfies_iterate (fun results hresults => hs.map fun ha =>
      List.forall_mem_cons.2 ⟨ha, hresults⟩) fun _ h => absurd h List.not_mem_nil
  exact hrounds.map fun hr a ha => hr a (List.mem_reverse.1 ha)

theorem satisfies_runWhole (hs : SatisfiesM P s) {text : String} {a : α}
    (h : runWhole s text = some a) : P a := by
  unfold runWhole at h
  split at h
  · rename_i hrun
    cases h
    exact satisfies_iff.1 hs _ _ _ hrun
  · exact absurd h.symm (Option.some_ne_none _)

end SheetPolicy.Scanner

/-! ## Files -/

namespace SheetPolicy.Toml

namespace Read

open Scanner

theorem satisfies_ofOption {α : Type} {P : α → Prop} {x : Option α} (h : SatisfiesM P x) :
    SatisfiesM P (ofOption x) := by
  cases x with
  | none => exact satisfies_failure
  | some a => exact .pure (SatisfiesM_Option_eq.1 h a rfl)

theorem satisfies_scalar : SatisfiesM Ordered scalar :=
  satisfies_orElse (SatisfiesM.trivial.map fun _ => .string _) <|
  satisfies_orElse (SatisfiesM.trivial.map fun _ => .datetime _) <|
  satisfies_orElse (SatisfiesM.trivial.map fun _ => .float _) <|
  satisfies_orElse (SatisfiesM.trivial.map fun _ => .integer _)
    (SatisfiesM.trivial.map fun _ => .boolean _)

section

variable {element : Scanner Toml} (h : SatisfiesM Ordered element)
include h

theorem satisfies_arrayElements :
    SatisfiesM (fun r => ∀ v ∈ r.1, v.Ordered) (arrayElements element) := by
  refine satisfies_iterate (fun state hstate => ?_) fun _ hv => absurd hv List.not_mem_nil
  refine satisfies_skip fun _ => ?_
  refine satisfies_skip fun _ => ?_
  refine h.bind fun v hv => ?_
  refine satisfies_skip fun _ => ?_
  refine satisfies_skip fun _ => ?_
  exact .pure (List.forall_mem_cons.2 ⟨hv, hstate⟩)

theorem satisfies_array : SatisfiesM Ordered (array element) := by
  refine satisfies_skip fun _ => ?_
  refine (satisfies_arrayElements h).bind fun r hr => ?_
  refine satisfies_skip fun _ => ?_
  refine satisfies_skip fun _ => ?_
  exact .pure (.array fun v hv => hr v (List.mem_reverse.1 hv))

theorem satisfies_keyValue : SatisfiesM (fun r => r.2.Ordered) (keyValue element) := by
  refine satisfies_skip fun _ => ?_
  refine satisfies_skip fun _ => ?_
  refine satisfies_skip fun _ => ?_
  exact h.bind fun _ hv => .pure hv

theorem satisfies_inlineTable : SatisfiesM Ordered (inlineTable element) := by
  have hpair := satisfies_keyValue h
  refine satisfies_skip fun _ => ?_
  refine (satisfies_optional hpair).bind fun first hfirst => ?_
  -- Whichever way the further entries come, what follows them is the same.
  have hclose (rest : List ((List String × String) × Toml)) (hrest : ∀ e ∈ rest, e.2.Ordered) :
      SatisfiesM Ordered (do
        gap
        Scanner.char '\x7d'
        let entries ← ofOption ((first.toList ++ rest).foldlM
          (fun entries (pair : (List String × String) × Toml) =>
            Draft.insert pair.1.1 pair.1.2 pair.2 entries) [])
        return (Draft.table .header entries).toToml) := by
    have hall : ∀ e ∈ first.toList ++ rest, e.2.Ordered :=
      List.forall_mem_append.2 ⟨fun e he => hfirst e (Option.mem_toList.1 he), hrest⟩
    refine satisfies_skip fun _ => satisfies_skip fun _ => ?_
    exact (satisfies_ofOption (Draft.satisfies_foldlM_insert hall)).bind
      fun entries hentries => .pure (Draft.Ordered.toToml (.table hentries))
  cases first with
  | none => exact (SatisfiesM.pure fun _ he => absurd he List.not_mem_nil).bind hclose
  | some _ =>
    exact (satisfies_many (satisfies_skip fun _ => satisfies_skip fun _ => hpair)).bind hclose

end

theorem satisfies_value (depth : Nat) : SatisfiesM Ordered (value depth) := by
  induction depth with
  | zero => exact satisfies_scalar
  | succ depth ih =>
    exact satisfies_orElse satisfies_scalar
      (satisfies_orElse (satisfies_array ih) (satisfies_inlineTable ih))

theorem satisfies_lineContent {o : Outline} (h : o.Ordered) :
    SatisfiesM Outline.Ordered (lineContent o) := by
  refine satisfies_orElse ?_ (satisfies_orElse ?_ ?_)
  · exact satisfies_skip fun path => satisfies_ofOption (h.openElement path)
  · exact satisfies_skip fun path => satisfies_ofOption (h.openTable path)
  · exact (satisfies_keyValue (satisfies_value _)).bind fun r hr =>
      satisfies_ofOption (h.set r.1.1 r.1.2 hr)

theorem satisfies_line {o : Outline} (h : o.Ordered) : SatisfiesM Outline.Ordered (line o) := by
  refine satisfies_skip fun _ => ?_
  refine (satisfies_optional (satisfies_lineContent h)).bind fun content hcontent => ?_
  refine satisfies_skip fun _ => .pure ?_
  cases content with
  | none => exact h
  | some next => exact hcontent next rfl

theorem satisfies_document : SatisfiesM Outline.Ordered document :=
  satisfies_skip fun _ => satisfies_iterate (fun _ h => satisfies_line h)
    ⟨Draft.Entries.ordered_nil, Draft.Entries.ordered_nil⟩

end Read

/-- A file is read into a table in order, and so are all tables in it. -/
theorem ordered_of_parse? {text : String} {t : Table} (h : parse? text = some t) :
    (Toml.table t).Ordered := by
  obtain ⟨outline, hrun, h⟩ := Option.bind_eq_some_iff.1 h
  obtain ⟨entries, hplace, h⟩ := Option.bind_eq_some_iff.1 h
  have houtline : outline.Ordered := Scanner.satisfies_runWhole Read.satisfies_document hrun
  have hentries : entries.Ordered := SatisfiesM_Option_eq.1 houtline.place entries hplace
  cases h
  exact Draft.ordered_table_tomlEntries fun e he => (hentries e he).toToml

end SheetPolicy.Toml
