import LargeNeighborhood.Proofs.Config.Tree
import Mathlib.Logic.Relation

/-!
# Trees of the same configuration

The order of keys, keys without a meaning, standard values that are written out and the list form of
a neighborhood: each is one edit of a tree, at the root, in the neighborhood or further inside. No
edit changes a value that is read, and so none changes the configuration.
-/

namespace LargeNeighborhood.Tree

/-! ## Edits -/

/-- Where in a tree a value stands. -/
inductive Place
  | root
  | neighborhood
  | inside

def Place.keys : Place → List String
  | .root => ["random_seed", "neighbor"]
  | .neighborhood => Settings.keys
  | .inside => []

def Place.below (place : Place) (key : String) : Place :=
  match place, key with
  | .root, "neighbor" => .neighborhood
  | _, _ => .inside

/-- One change that leaves the configuration alone. -/
inductive Edit : Place → Tree → Tree → Prop
  | reorder (place : Place) {entries entries' : List (String × Tree)}
    (hnodup : (entries.map Prod.fst).Nodup) (hperm : entries.Perm entries') :
    Edit place (.map entries) (.map entries')
  | add (place : Place) (key : String) (value : Tree) (entries : List (String × Tree))
    (hkey : key ∉ place.keys) : Edit place (.map entries) (.map ((key, value) :: entries))
  | value (place : Place) (key : String) {value value' : Tree} (before after : List (String × Tree))
    (hvalue : Edit (place.below key) value value') :
    Edit place (.map (before ++ (key, value) :: after)) (.map (before ++ (key, value') :: after))
  | item (place : Place) {item item' : Tree} (before after : List Tree)
    (hitem : Edit .inside item item') :
    Edit place (.list (before ++ item :: after)) (.list (before ++ item' :: after))
  | listed (items : List Tree) (hlength : items.length ≤ Settings.keys.length) :
    Edit .neighborhood (.map (Settings.keys.zip items)) (.list items)
  | proportion (entries : List (String × Tree))
    (hmissing : "prop_fix_values" ∉ entries.map Prod.fst) :
    Edit .neighborhood (.map entries)
      (.map (("prop_fix_values", .float Settings.standard.proportion) :: entries))
  | level (entries : List (String × Tree)) (hmissing : "level" ∉ entries.map Prod.fst) :
    Edit .neighborhood (.map entries)
      (.map (("level", .integer Settings.standard.level.toNat) :: entries))

/-- Trees that edits lead from one to the other, in either direction. -/
def Alike : Tree → Tree → Prop :=
  Relation.EqvGen (Edit .root)

/-! ## What edits leave alone -/

def IsScalar : Tree → Prop
  | .list _ | .map _ => False
  | _ => True

def SameScalar (t t' : Tree) : Prop :=
  t = t' ∨ (¬ t.IsScalar ∧ ¬ t'.IsScalar)

namespace SameScalar

variable {t t' : Tree} {α : Type}

theorem refl (t : Tree) : SameScalar t t := .inl rfl

theorem eq_of_none {read : Tree → Option α} (hread : ∀ t, ¬ t.IsScalar → read t = none)
    (h : SameScalar t t') : read t = read t' := by
  obtain rfl | ⟨h, h'⟩ := h
  · rfl
  · rw [hread t h, hread t' h']

theorem double?_eq (h : SameScalar t t') : t.double? = t'.double? :=
  h.eq_of_none fun t ht => by cases t <;> first | rfl | exact absurd trivial ht

theorem word32?_eq (h : SameScalar t t') : t.word32? = t'.word32? :=
  h.eq_of_none fun t ht => by cases t <;> first | rfl | exact absurd trivial ht

theorem seed?_eq (h : SameScalar t t') : t.seed? = t'.seed? :=
  h.eq_of_none fun t ht => by cases t <;> first | rfl | exact absurd trivial ht

theorem text_iff (h : SameScalar t t') (s : String) : t = .text s ↔ t' = .text s := by
  obtain rfl | ⟨h, h'⟩ := h
  · rfl
  · constructor
    · rintro rfl
      exact absurd trivial h
    · rintro rfl
      exact absurd trivial h'

end SameScalar

theorem Edit.sameScalar {place : Place} {t t' : Tree} (h : Edit place t t') : SameScalar t t' := by
  cases h <;> exact .inr ⟨id, id⟩

/-! ## Neighborhoods -/

theorem ofLookup_congr {entry other : String → Option Tree}
    (h : ∀ key ∈ Settings.keys, Option.Rel SameScalar (entry key) (other key)) :
    Settings.ofLookup entry = Settings.ofLookup other := by
  have hkind : entry "type" = some (.text Config.kind) ↔
      other "type" = some (.text Config.kind) := by
    have hrel := h "type" (by decide)
    generalize entry "type" = a at hrel
    generalize other "type" = b at hrel
    cases hrel with
    | none => rfl
    | some hscalar => rw [Option.some.injEq, Option.some.injEq, hscalar.text_iff]
  have hproportion :
      (entry "prop_fix_values").mapM double? = (other "prop_fix_values").mapM double? :=
    mapM_eq_of_rel (h _ (by decide)) fun _ _ => SameScalar.double?_eq
  have hlevel : (entry "level").mapM word32? = (other "level").mapM word32? :=
    mapM_eq_of_rel (h _ (by decide)) fun _ _ => SameScalar.word32?_eq
  simp only [Settings.ofLookup, hkind, hproportion, hlevel]

theorem forall₂_middle {α : Type} {R : α → α → Prop} (hrefl : ∀ a, R a a) (before after : List α)
    {a a' : α} (h : R a a') : List.Forall₂ R (before ++ a :: after) (before ++ a' :: after) :=
  have hsame (as : List α) : List.Forall₂ R as as := List.forall₂_same.mpr fun a _ => hrefl a
  List.rel_append (hsame before) (.cons h (hsame after))

theorem rel_refl (a : Option Tree) : Option.Rel SameScalar a a := by
  cases a with
  | none => exact .none
  | some t => exact .some (.refl t)

/-- Entries that agree in everything but the inside of their values. -/
def SameEntries : List (String × Tree) → List (String × Tree) → Prop :=
  List.Forall₂ fun e e' => e.1 = e'.1 ∧ SameScalar e.2 e'.2

theorem SameEntries.rel {entries entries' : List (String × Tree)} (h : SameEntries entries entries')
    (key : String) : Option.Rel SameScalar (entries.lookup key) (entries'.lookup key) :=
  lookup_rel (h.imp fun _ _ h => ⟨h.1, fun _ => h.2⟩)

theorem sameEntries_edit {place : Place} {key : String} {value value' : Tree}
    (before after : List (String × Tree)) (h : Edit place value value') :
    SameEntries (before ++ (key, value) :: after) (before ++ (key, value') :: after) :=
  forall₂_middle (fun e => ⟨rfl, .refl e.2⟩) before after ⟨rfl, h.sameScalar⟩

theorem sameEntries_zip {items items' : List Tree} (h : List.Forall₂ SameScalar items items')
    (names : List String) : SameEntries (names.zip items) (names.zip items') := by
  induction h generalizing names with
  | nil =>
    rw [List.zip_nil_right]
    exact .nil
  | cons h _ ih =>
    cases names with
    | nil => exact .nil
    | cons name names => exact .cons ⟨rfl, h⟩ (ih names)

theorem Edit.settings_eq {t t' : Tree} (h : Edit .neighborhood t t') :
    Settings.ofTree t = Settings.ofTree t' := by
  cases h with
  | reorder _ hnodup hperm => simp only [Settings.ofTree, lookup_perm hnodup hperm]
  | add _ key value entries hkey =>
    rw [Settings.ofTree, Settings.ofTree]
    apply ofLookup_congr
    intro known hknown
    have hne : key ≠ known := fun h => hkey (h ▸ hknown)
    rw [lookup_cons_ne hne]
    exact rel_refl _
  | value _ key before after hvalue =>
    rw [Settings.ofTree, Settings.ofTree]
    exact ofLookup_congr fun known _ => (sameEntries_edit before after hvalue).rel known
  | @item _ item item' before after hitem =>
    have hitems : List.Forall₂ SameScalar (before ++ item :: after) (before ++ item' :: after) :=
      forall₂_middle .refl before after hitem.sameScalar
    rw [Settings.ofTree, Settings.ofTree, hitems.length_eq,
      ofLookup_congr fun known _ => (sameEntries_zip hitems Settings.keys).rel known]
  | listed items hlength => exact (if_pos hlength).symm
  | proportion entries hmissing =>
    have hlater : entries.lookup "prop_fix_values" = none := lookup_eq_none_of_not_mem hmissing
    simp [Settings.ofTree, Settings.ofLookup, lookup_cons_ne, hlater, double?]
  | level entries hmissing =>
    have hlater : entries.lookup "level" = none := lookup_eq_none_of_not_mem hmissing
    have hstandard : (Tree.integer Settings.standard.level.toNat).word32? =
        some Settings.standard.level := by
      decide +kernel
    simp only [Settings.ofTree, Settings.ofLookup, List.lookup_cons_self, Option.mapM_some,
      hlater, hstandard, Option.mapM_none]
    rw [lookup_cons_ne (by decide), lookup_cons_ne (by decide)]
    rfl

/-! ## Roots -/

theorem Edit.config_eq {t t' : Tree} (h : Edit .root t t') :
    Config.ofTree t = Config.ofTree t' := by
  cases h with
  | reorder _ hnodup hperm => simp only [Config.ofTree, lookup_perm hnodup hperm]
  | add _ key value entries hkey =>
    have hseed : key ≠ "random_seed" := fun h => hkey (h ▸ List.mem_cons_self)
    have hneighbor : key ≠ "neighbor" := fun h =>
      hkey (h ▸ List.mem_cons_of_mem _ List.mem_cons_self)
    rw [Config.ofTree, Config.ofTree, lookup_cons_ne hseed, lookup_cons_ne hneighbor]
  | @value _ key value value' before after hvalue =>
    have hsettings : key = "neighbor" → Settings.ofTree value = Settings.ofTree value' := by
      rintro rfl
      exact hvalue.settings_eq
    have hneighbor : List.Forall₂
        (fun e e' => e.1 = e'.1 ∧ (e.1 = "neighbor" → Settings.ofTree e.2 = Settings.ofTree e'.2))
        (before ++ (key, value) :: after) (before ++ (key, value') :: after) :=
      forall₂_middle (fun _ => ⟨rfl, fun _ => rfl⟩) before after ⟨rfl, hsettings⟩
    rw [Config.ofTree, Config.ofTree,
      mapM_eq_of_rel ((sameEntries_edit before after hvalue).rel _) fun _ _ => SameScalar.seed?_eq,
      mapM_eq_of_rel (lookup_rel hneighbor) fun _ _ h => h]
  | item _ before after hitem => rfl

theorem Alike.config_eq {t t' : Tree} (h : Alike t t') : Config.ofTree t = Config.ofTree t' := by
  induction h with
  | rel t t' h => exact h.config_eq
  | refl t => rfl
  | symm t t' _ ih => exact ih.symm
  | trans t t' t'' _ _ ih ih' => exact ih.trans ih'

end LargeNeighborhood.Tree
