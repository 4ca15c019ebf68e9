import LargeNeighborhood.Config.Content
import Mathlib.Data.List.Forall2
import Mathlib.Data.List.Nodup

/-!
# Documents as trees

What a document says apart from the format it is written in: mappings with distinct keys, lists,
texts, booleans, signed 64-bit integers and doubles. `Content.tree?` is the tree a content stands
for. `Config.ofTree` decodes a tree by looking its keys up, and decoding the content of a
neighborhood entry by entry comes to the same.
-/

namespace LargeNeighborhood

inductive Tree
  | text (value : String)
  | boolean (value : Bool)
  | integer (value : Int)
  | float (value : Binary64)
  | list (items : List Tree)
  | map (entries : List (String × Tree))

namespace Tree

/-! ## Equality -/

mutual

def decEq : (a b : Tree) → Decidable (a = b)
  | .text a, .text b => decidable_of_iff (a = b) (Tree.text.injEq a b).to_iff.symm
  | .boolean a, .boolean b => decidable_of_iff (a = b) (Tree.boolean.injEq a b).to_iff.symm
  | .integer a, .integer b => decidable_of_iff (a = b) (Tree.integer.injEq a b).to_iff.symm
  | .float a, .float b => decidable_of_iff (a = b) (Tree.float.injEq a b).to_iff.symm
  | .list a, .list b =>
    have := decEqItems a b
    decidable_of_iff (a = b) (Tree.list.injEq a b).to_iff.symm
  | .map a, .map b =>
    have := decEqEntries a b
    decidable_of_iff (a = b) (Tree.map.injEq a b).to_iff.symm
  | .text _, .boolean _ | .text _, .integer _ | .text _, .float _ | .text _, .list _
  | .text _, .map _ | .boolean _, .text _ | .boolean _, .integer _ | .boolean _, .float _
  | .boolean _, .list _ | .boolean _, .map _ | .integer _, .text _ | .integer _, .boolean _
  | .integer _, .float _ | .integer _, .list _ | .integer _, .map _ | .float _, .text _
  | .float _, .boolean _ | .float _, .integer _ | .float _, .list _ | .float _, .map _
  | .list _, .text _ | .list _, .boolean _ | .list _, .integer _ | .list _, .float _
  | .list _, .map _ | .map _, .text _ | .map _, .boolean _ | .map _, .integer _ | .map _, .float _
  | .map _, .list _ => isFalse nofun

def decEqItems : (a b : List Tree) → Decidable (a = b)
  | [], [] => isTrue rfl
  | [], _ :: _ | _ :: _, [] => isFalse nofun
  | a :: as, b :: bs =>
    have := decEq a b
    have := decEqItems as bs
    decidable_of_iff (a = b ∧ as = bs) (List.cons.injEq a as b bs).to_iff.symm

def decEqEntries : (a b : List (String × Tree)) → Decidable (a = b)
  | [], [] => isTrue rfl
  | [], _ :: _ | _ :: _, [] => isFalse nofun
  | (k, a) :: as, (l, b) :: bs =>
    have := decEq a b
    have := decEqEntries as bs
    decidable_of_iff (k = l ∧ a = b ∧ as = bs) (by simp [and_assoc])

end

instance instDecidableEq : DecidableEq Tree := decEq

/-! ## Numbers of a tree -/

def double? : Tree → Option Binary64
  | .float x => some x
  | .integer i => some (Binary64.ofInt i)
  | _ => none

def word32? : Tree → Option UInt32
  | .integer i => if 0 ≤ i ∧ i < UInt32.size then some (UInt32.ofNat i.toNat) else none
  | _ => none

def seed? : Tree → Option UInt64
  | .integer i => if 0 ≤ i ∧ i < UInt64.size then some (UInt64.ofNat i.toNat) else none
  | _ => none

theorem seed?_natCast {n : Nat} (hlt : n < UInt64.size) :
    (integer n).seed? = some (UInt64.ofNat n) := by
  have hlt : (n : Int) < UInt64.size := Int.ofNat_lt.mpr hlt
  rw [seed?, if_pos ⟨Int.natCast_nonneg n, hlt⟩, Int.toNat_natCast]

theorem seed?_of_neg {i : Int} (hneg : i < 0) : (integer i).seed? = none := by
  rw [seed?, if_neg fun h => absurd h.1 (Int.not_le.mpr hneg)]

end Tree

/-! ## Decoding by lookup -/

namespace Settings

/-- The keys of a neighborhood, in the order of its list form. -/
def keys : List String :=
  ["type", "prop_fix_values", "level"]

def ofLookup (entry : String → Option Tree) : Option Settings :=
  if entry "type" = some (.text Config.kind) then do
    let proportion ← (entry "prop_fix_values").mapM Tree.double?
    let level ← (entry "level").mapM Tree.word32?
    return ⟨proportion.getD standard.proportion, level.getD standard.level⟩
  else
    none

/-- A mapping, or a list of values for the first keys. -/
def ofTree : Tree → Option Settings
  | .map entries => ofLookup fun key => entries.lookup key
  | .list items =>
    if items.length ≤ keys.length then ofLookup fun key => (keys.zip items).lookup key else none
  | _ => none

end Settings

def Config.ofTree : Tree → Option Config
  | .map entries => do
    let seed ← (entries.lookup "random_seed").mapM Tree.seed?
    let settings ← (entries.lookup "neighbor").mapM Settings.ofTree
    return ⟨seed, settings.getD .standard⟩
  | _ => none

/-! ## Contents as trees -/

mutual

/-- The tree of a content. Nulls, keys that are no texts or come twice and integers of more than 64
bits have none. -/
def Content.tree? : Content → Option Tree
  | .null => none
  | .boolean b => some (.boolean b)
  | .unsigned n => if (n : Int) ≤ Int64.maxValue.toInt then some (.integer n) else none
  | .signed i =>
    if Int64.minValue.toInt ≤ i ∧ i ≤ Int64.maxValue.toInt then some (.integer i) else none
  | .float x => some (.float x)
  | .text s => some (.text s)
  | .list items => return .list (← itemsTrees? items)
  | .map entries => do
    let entries ← entriesTrees? entries
    if (entries.map Prod.fst).Nodup then some (.map entries) else none

def itemsTrees? : List Content → Option (List Tree)
  | [] => some []
  | item :: items => return (← item.tree?) :: (← itemsTrees? items)

def entriesTrees? : List (Content × Content) → Option (List (String × Tree))
  | [] => some []
  | (.text key, value) :: entries => return (key, ← value.tree?) :: (← entriesTrees? entries)
  | _ :: _ => none

end

def Content.EntryShows (entry : Content × Content) (e : String × Tree) : Prop :=
  entry.1 = .text e.1 ∧ entry.2.tree? = some e.2

/-- The ways in which a content stands for a tree. -/
inductive Content.Shows : Content → Tree → Prop
  | boolean (b : Bool) : Shows (.boolean b) (.boolean b)
  | unsigned (n : Nat) (hle : (n : Int) ≤ Int64.maxValue.toInt) : Shows (.unsigned n) (.integer n)
  | signed (i : Int) (hmin : Int64.minValue.toInt ≤ i) (hmax : i ≤ Int64.maxValue.toInt) :
    Shows (.signed i) (.integer i)
  | float (x : Binary64) : Shows (.float x) (.float x)
  | text (s : String) : Shows (.text s) (.text s)
  | list {items : List Content} {trees : List Tree}
    (hitems : List.Forall₂ (fun c t => c.tree? = some t) items trees) :
    Shows (.list items) (.list trees)
  | map {entries : List (Content × Content)} {es : List (String × Tree)}
    (hentries : List.Forall₂ EntryShows entries es) (hnodup : (es.map Prod.fst).Nodup) :
    Shows (.map entries) (.map es)

section

variable {c : Content} {t : Tree} {s : String}

theorem itemsTrees?_eq_some_iff {items : List Content} {trees : List Tree} :
    itemsTrees? items = some trees ↔ List.Forall₂ (fun c t => c.tree? = some t) items trees := by
  induction items generalizing trees with
  | nil => simp [itemsTrees?, eq_comm]
  | cons item items ih =>
    cases trees with
    | nil => simp [itemsTrees?, Option.bind_eq_some_iff]
    | cons tree trees => simp [itemsTrees?, Option.bind_eq_some_iff, ih]

theorem entriesTrees?_eq_some_iff {entries : List (Content × Content)} {es : List (String × Tree)} :
    entriesTrees? entries = some es ↔ List.Forall₂ Content.EntryShows entries es := by
  induction entries generalizing es with
  | nil => simp [entriesTrees?, eq_comm]
  | cons entry entries ih =>
    obtain ⟨key, value⟩ := entry
    cases es with
    | nil => cases key <;> simp [entriesTrees?, Option.bind_eq_some_iff]
    | cons e es =>
      cases key with
      | text s =>
        simp only [entriesTrees?, Content.EntryShows, Option.bind_eq_bind, Option.bind_eq_some_iff,
          List.forall₂_cons, ih, Option.pure_def, Option.some.injEq, List.cons.injEq,
          Content.text.injEq]
        constructor
        · rintro ⟨tree, htree, _, htail, rfl, rfl⟩
          exact ⟨⟨rfl, htree⟩, htail⟩
        · rintro ⟨⟨rfl, htree⟩, htail⟩
          exact ⟨_, htree, _, htail, rfl, rfl⟩
      | _ => simp [entriesTrees?, Content.EntryShows]

namespace Content

theorem shows_of_tree? (h : c.tree? = some t) : c.Shows t := by
  cases c with
  | null => cases h
  | boolean b => cases h; exact .boolean b
  | unsigned n =>
    rw [tree?, Option.ite_none_right_eq_some] at h
    obtain ⟨hle, h⟩ := h
    cases h
    exact .unsigned n hle
  | signed i =>
    rw [tree?, Option.ite_none_right_eq_some] at h
    obtain ⟨⟨hmin, hmax⟩, h⟩ := h
    cases h
    exact .signed i hmin hmax
  | float x => cases h; exact .float x
  | text s => cases h; exact .text s
  | list items =>
    rw [tree?, Option.bind_eq_bind, Option.bind_eq_some_iff] at h
    obtain ⟨trees, hitems, h⟩ := h
    cases h
    exact .list (itemsTrees?_eq_some_iff.mp hitems)
  | map entries =>
    rw [tree?, Option.bind_eq_bind, Option.bind_eq_some_iff] at h
    obtain ⟨es, hentries, h⟩ := h
    rw [Option.ite_none_right_eq_some] at h
    obtain ⟨hnodup, h⟩ := h
    cases h
    exact .map (entriesTrees?_eq_some_iff.mp hentries) hnodup

theorem tree?_eq_text_iff : c.tree? = some (.text s) ↔ c = .text s := by
  constructor
  · intro h
    cases shows_of_tree? h
    rfl
  · rintro rfl
    rfl

theorem double?_of_tree? (h : c.tree? = some t) : c.double? = t.double? := by
  cases shows_of_tree? h <;> rfl

theorem word32?_of_tree? (h : c.tree? = some t) : c.word32? = t.word32? := by
  cases shows_of_tree? h with
  | unsigned n =>
    have hlt : (n : Int) < UInt32.size ↔ n < UInt32.size := Int.ofNat_lt
    simp only [word32?, Tree.word32?, hlt, Int.natCast_nonneg, true_and, Int.toNat_natCast]
  | _ => rfl

end Content

end

/-! ## Looking keys up -/

section

variable {α : Type} {key name : String} {value : α} {entries entries' : List (String × α)}

theorem lookup_cons_ne (h : name ≠ key) :
    ((name, value) :: entries).lookup key = entries.lookup key := by
  rw [List.lookup_cons, beq_eq_false_iff_ne.mpr h.symm]

theorem lookup_eq_none_of_not_mem (h : key ∉ entries.map Prod.fst) : entries.lookup key = none := by
  rw [List.lookup_eq_none_iff]
  rintro entry hentry
  rw [bne_iff_ne]
  rintro rfl
  exact h (List.mem_map_of_mem hentry)

theorem lookup_eq_some_iff_mem (hnodup : (entries.map Prod.fst).Nodup) :
    entries.lookup key = some value ↔ (key, value) ∈ entries := by
  constructor
  · intro h
    obtain ⟨before, after, rfl, _⟩ := List.lookup_eq_some_iff.mp h
    exact List.mem_append_right before List.mem_cons_self
  · intro h
    obtain ⟨before, after, rfl⟩ := List.append_of_mem h
    rw [List.map_append, List.map_cons, List.nodup_middle, List.nodup_cons, List.mem_append,
      not_or] at hnodup
    rw [List.lookup_append, lookup_eq_none_of_not_mem hnodup.1.1, List.lookup_cons_self]
    rfl

theorem filter_eq_lookup (hnodup : (entries.map Prod.fst).Nodup) :
    (entries.filter fun e => e.1 = key) =
      ((entries.lookup key).map fun value => (key, value)).toList := by
  induction entries with
  | nil => rfl
  | cons e entries ih =>
    obtain ⟨name, value⟩ := e
    rw [List.map_cons, List.nodup_cons] at hnodup
    by_cases hname : name = key
    · subst hname
      rw [List.filter_cons_of_pos (by simp), ih hnodup.2, lookup_eq_none_of_not_mem hnodup.1,
        List.lookup_cons_self]
      rfl
    · rw [List.filter_cons_of_neg (by simpa using hname), ih hnodup.2, lookup_cons_ne hname]

theorem lookup_filter (h : name ≠ key) :
    (entries.filter fun e => e.1 ≠ name).lookup key = entries.lookup key := by
  induction entries with
  | nil => rfl
  | cons e entries ih =>
    obtain ⟨other, value⟩ := e
    by_cases hname : other = name
    · rw [List.filter_cons_of_neg (by simpa using hname), ih, lookup_cons_ne (hname ▸ h)]
    · rw [List.filter_cons_of_pos (by simpa using hname), List.lookup_cons, List.lookup_cons, ih]

end

/-! ## Related entries -/

section

variable {α β : Type} {R : α → β → Prop} {key : String} {entries : List (String × α)}
  {others : List (String × β)}

theorem lookup_rel
    (h : List.Forall₂ (fun e e' => e.1 = e'.1 ∧ (e.1 = key → R e.2 e'.2)) entries others) :
    Option.Rel R (entries.lookup key) (others.lookup key) := by
  induction h with
  | nil => exact .none
  | @cons e e' _ _ hentry _ ih =>
    obtain ⟨name, value⟩ := e
    obtain ⟨_, value'⟩ := e'
    obtain ⟨rfl, hvalue⟩ := hentry
    by_cases hname : name = key
    · subst hname
      rw [List.lookup_cons_self, List.lookup_cons_self]
      exact .some (hvalue rfl)
    · rw [lookup_cons_ne hname, lookup_cons_ne hname]
      exact ih

theorem mapM_eq_of_rel {γ : Type} {f : α → Option γ} {g : β → Option γ} {a : Option α}
    {b : Option β}
    (h : Option.Rel R a b) (hfg : ∀ x y, R x y → f x = g y) : a.mapM f = b.mapM g := by
  cases h with
  | none => rfl
  | some h => rw [Option.mapM_some, Option.mapM_some, hfg _ _ h]

theorem lookup_perm {entries' : List (String × α)} (hnodup : (entries.map Prod.fst).Nodup)
    (hperm : entries.Perm entries') (key : String) : entries.lookup key = entries'.lookup key := by
  have hnodup' := (hperm.map Prod.fst).nodup_iff.mp hnodup
  ext value
  rw [lookup_eq_some_iff_mem hnodup, lookup_eq_some_iff_mem hnodup', hperm.mem_iff]

end

/-! ## Decoding the content of a neighborhood -/

namespace Settings

open Content

variable {entries : List (Content × Content)} {es : List (String × Tree)}

/-- An entry that is good enough for decoding: the kind only matters where it is the right one. -/
def EntryDecodes (entry : Content × Content) (e : String × Tree) : Prop :=
  entry.1 = .text e.1 ∧
    if e.1 = "type" then entry.2 = .text Config.kind ↔ e.2 = .text Config.kind
    else entry.2.tree? = some e.2

theorem entryDecodes_of_entryShows {entry : Content × Content} {e : String × Tree}
    (h : EntryShows entry e) : EntryDecodes entry e := by
  refine ⟨h.1, ?_⟩
  split
  · rw [← tree?_eq_text_iff, h.2, Option.some.injEq]
  · exact h.2

/-- What entries that are looked up add to the settings given so far. -/
def Given.extend (given : Given) (entry : String → Option Tree) : Option Given := do
  let proportion ← (entry "prop_fix_values").mapM Tree.double?
  let level ← (entry "level").mapM Tree.word32?
  return ⟨proportion <|> given.proportion, level <|> given.level⟩

theorem add_proportion (level : Option UInt32) (c : Content) :
    Given.add ⟨none, level⟩ (.text "prop_fix_values", c) =
      c.double?.map fun x => ⟨some x, level⟩ := by
  unfold Given.add
  cases c.double? <;> rfl

theorem add_level (proportion : Option Binary64) (c : Content) :
    Given.add ⟨proportion, none⟩ (.text "level", c) =
      c.word32?.map fun n => ⟨proportion, some n⟩ := by
  unfold Given.add
  cases proportion <;> cases c.word32? <;> rfl

theorem add_unknown {key : String} (hproportion : key ≠ "prop_fix_values") (hlevel : key ≠ "level")
    (given : Given) (c : Content) : given.add (.text key, c) = some given := by
  have hkey : Field.ofKey (.text key) = some .unknown := by
    unfold Field.ofKey
    split
    case h_1 h => cases h; exact absurd rfl hproportion
    case h_3 h => cases h; exact absurd rfl hlevel
    case h_5 => rfl
    all_goals simp_all
  unfold Given.add
  rw [hkey]
  rfl

def Given.Free (given : Given) (names : List String) : Prop :=
  (given.proportion.isSome → "prop_fix_values" ∉ names) ∧ (given.level.isSome → "level" ∉ names)

theorem add_entry {entry : Content × Content} {e : String × Tree} (hentry : EntryDecodes entry e)
    (htype : e.1 ≠ "type") (hnew : e.1 ∉ es.map Prod.fst) {given : Given}
    (hfree : given.Free ((e :: es).map Prod.fst)) :
    (∀ next ∈ given.add entry, next.Free (es.map Prod.fst)) ∧
      (given.extend fun key => (e :: es).lookup key) =
        (given.add entry).bind fun next => next.extend fun key => es.lookup key := by
  obtain ⟨key, value⟩ := entry
  obtain ⟨name, tree⟩ := e
  obtain ⟨rfl, hvalue⟩ := hentry
  rw [if_neg htype] at hvalue
  obtain ⟨proportion, level⟩ := given
  simp only [Given.Free, List.map_cons, List.mem_cons, not_or] at hfree
  by_cases hname : name = "prop_fix_values"
  · subst hname
    obtain rfl : proportion = none := Option.not_isSome_iff_eq_none.mp fun h => (hfree.1 h).1 rfl
    have hlater : es.lookup "prop_fix_values" = none := lookup_eq_none_of_not_mem hnew
    rw [add_proportion, double?_of_tree? hvalue]
    cases hx : tree.double? with
    | none => simp [Given.extend, hx]
    | some x =>
      refine ⟨?_, by simp [Given.extend, lookup_cons_ne, hx, hlater]⟩
      rintro _ ⟨⟩
      exact ⟨fun _ => hnew, fun h => (hfree.2 h).2⟩
  · by_cases hother : name = "level"
    · subst hother
      obtain rfl : level = none := Option.not_isSome_iff_eq_none.mp fun h => (hfree.2 h).1 rfl
      have hlater : es.lookup "level" = none := lookup_eq_none_of_not_mem hnew
      rw [add_level, word32?_of_tree? hvalue]
      cases hn : tree.word32? with
      | none => simp [Given.extend, hn]
      | some n =>
        refine ⟨?_, by simp [Given.extend, lookup_cons_ne, hn, hlater]⟩
        rintro _ ⟨⟩
        exact ⟨fun h => (hfree.1 h).2, fun _ => hnew⟩
    · rw [add_unknown hname hother]
      refine ⟨?_, by simp only [lookup_cons_ne hname, lookup_cons_ne hother, Given.extend,
        Option.bind_some]⟩
      rintro _ ⟨⟩
      exact ⟨fun h => (hfree.1 h).2, fun h => (hfree.2 h).2⟩

theorem foldlM_add (h : List.Forall₂ EntryDecodes entries es) (hnodup : (es.map Prod.fst).Nodup)
    (htype : "type" ∉ es.map Prod.fst) {given : Given} (hfree : given.Free (es.map Prod.fst)) :
    entries.foldlM Given.add given = given.extend fun key => es.lookup key := by
  induction h generalizing given with
  | nil => simp [Given.extend]
  | @cons entry e entries es hentry _ ih =>
    rw [List.map_cons, List.nodup_cons] at hnodup
    rw [List.map_cons, List.mem_cons, not_or] at htype
    obtain ⟨hnext, hextend⟩ := add_entry hentry (Ne.symm htype.1) hnodup.1 hfree
    rw [List.foldlM_cons, hextend, Option.bind_eq_bind]
    exact Option.bind_congr fun next h => ih hnodup.2 htype.2 (hnext next h)

theorem ofLookup_of_kind {entry : String → Option Tree}
    (h : entry "type" = some (.text Config.kind)) :
    ofLookup entry = (Given.extend ⟨none, none⟩ entry).map Given.complete := by
  rw [ofLookup, Given.extend, if_pos h]
  cases (entry "prop_fix_values").mapM Tree.double? with
  | none => rfl
  | some proportion =>
    cases (entry "level").mapM Tree.word32? with
    | none => rfl
    | some level => simp [Given.complete]

theorem ofContent_map_eq_none
    (h : ∀ key, entries.filter (fun entry => entry.1.isKindKey) ≠ [(key, .text Config.kind)]) :
    ofContent (.map entries) = none := by
  simp only [ofContent]
  split
  case h_1 key kind hfilter =>
    rw [if_neg]
    rintro rfl
    exact h key hfilter
  case h_2 => rfl

theorem ofContent_map (h : List.Forall₂ EntryDecodes entries es)
    (hnodup : (es.map Prod.fst).Nodup) : ofContent (.map entries) = ofTree (.map es) := by
  have hkinds : List.Forall₂ EntryDecodes (entries.filter fun entry => entry.1.isKindKey)
      (((es.lookup "type").map fun t => ("type", t)).toList) := by
    rw [← filter_eq_lookup hnodup]
    apply List.rel_filter _ h
    rintro ⟨_, _⟩ ⟨name, _⟩ ⟨rfl, _⟩
    simp [isKindKey]
  have hothers : List.Forall₂ EntryDecodes (entries.filter fun entry => !entry.1.isKindKey)
      (es.filter fun e => e.1 ≠ "type") := by
    apply List.rel_filter _ h
    rintro ⟨_, _⟩ ⟨name, _⟩ ⟨rfl, _⟩
    simp [isKindKey]
  by_cases hkind : es.lookup "type" = some (.text Config.kind)
  · rw [hkind, Option.map_some, Option.toList_some, List.forall₂_cons_right_iff] at hkinds
    obtain ⟨⟨key, value⟩, _, ⟨rfl, hvalue⟩, hnil, hfilter⟩ := hkinds
    obtain rfl := hvalue.mpr rfl
    rw [List.forall₂_nil_right_iff.mp hnil] at hfilter
    have hrest : ((es.filter fun e => e.1 ≠ "type").map Prod.fst).Nodup :=
      hnodup.sublist (List.filter_sublist.map Prod.fst)
    have hextend :
        (Given.extend ⟨none, none⟩ fun key => (es.filter fun e => e.1 ≠ "type").lookup key) =
        Given.extend ⟨none, none⟩ fun key => es.lookup key := by
      rw [Given.extend, Given.extend, lookup_filter (by decide), lookup_filter (by decide)]
    simp only [ofContent, hfilter, if_true, ofEntries]
    have hfree (names : List String) : (Given.mk none none).Free names := ⟨nofun, nofun⟩
    rw [foldlM_add hothers hrest (by simp) (hfree _), hextend, ofTree, ofLookup_of_kind hkind]
    exact bind_pure_comp Given.complete _
  · rw [ofTree, ofLookup, if_neg hkind]
    apply ofContent_map_eq_none
    intro key hkey
    rw [hkey] at hkinds
    cases hfound : es.lookup "type" with
    | none =>
      rw [hfound] at hkinds
      cases hkinds
    | some t =>
      rw [hfound, Option.map_some, Option.toList_some, List.forall₂_cons] at hkinds
      obtain ⟨⟨_, hvalue⟩, _⟩ := hkinds
      exact hkind (hfound.trans (congrArg some (hvalue.mp rfl)))

theorem ofContent_list {kind : Content} {kindTree : Tree} {items : List Content} {trees : List Tree}
    (hkind : kind = .text Config.kind ↔ kindTree = .text Config.kind)
    (hitems : List.Forall₂ (fun c t => c.tree? = some t) items trees) :
    ofContent (.list (kind :: items)) = ofTree (.list (kindTree :: trees)) := by
  by_cases htree : kindTree = .text Config.kind
  · obtain rfl := hkind.mpr htree
    subst htree
    simp only [ofContent, if_true, ofTree]
    cases hitems with
    | nil => simp [ofItems, ofLookup, keys, List.lookup_cons]
    | @cons _ proportion _ _ hproportion hitems =>
      cases hitems with
      | nil =>
        cases hdouble : proportion.double? <;>
          simp [ofItems, ofLookup, keys, List.lookup_cons, double?_of_tree? hproportion, hdouble]
      | @cons _ level _ _ hlevel hitems =>
        cases hitems with
        | nil =>
          cases hdouble : proportion.double? <;> cases hword : level.word32? <;>
            simp [ofItems, ofLookup, keys, List.lookup_cons, double?_of_tree? hproportion,
              word32?_of_tree? hlevel, hdouble, hword]
        | cons _ _ => simp [ofItems, keys]
  · have hlookup : (keys.zip (kindTree :: trees)).lookup "type" = some kindTree := rfl
    have hne : some kindTree ≠ some (.text Config.kind) := by simpa using htree
    have hnone : ofContent (.list (kind :: items)) = none := by
      cases kind with
      | text s => exact if_neg fun h => htree (hkind.mp (congrArg Content.text h))
      | _ => rfl
    rw [hnone, ofTree, ofLookup, hlookup, if_neg hne, ite_self]

theorem ofContent_eq_ofTree {c : Content} {t : Tree} (h : c.tree? = some t) :
    ofContent c = ofTree t := by
  cases shows_of_tree? h with
  | map hentries hnodup =>
    exact ofContent_map (hentries.imp fun _ _ => entryDecodes_of_entryShows) hnodup
  | list hitems =>
    cases hitems with
    | nil => rfl
    | cons hkind hitems =>
      apply ofContent_list _ hitems
      rw [← tree?_eq_text_iff, hkind, Option.some.injEq]
  | _ => rfl

end Settings

theorem Config.ofParts_eq (seed : Option UInt64) (neighborhood : Option Content) :
    Config.ofParts seed neighborhood = do
      let settings ← neighborhood.mapM Settings.ofContent
      return ⟨seed, settings.getD .standard⟩ := by
  cases neighborhood with
  | none => rfl
  | some content =>
    rw [ofParts, Option.mapM_some]
    cases Settings.ofContent content <;> rfl

end LargeNeighborhood
