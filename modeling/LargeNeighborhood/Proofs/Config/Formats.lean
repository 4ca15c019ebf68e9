import LargeNeighborhood.Proofs.Config.Alike
import LargeNeighborhood.Proofs.Config.YamlTree

/-!
# Two formats of one configuration

A TOML text and a YAML text that are read as the same tree give the same configuration or both fail.
The tree itself may be rearranged: the order of keys, keys without a meaning, standard values that
are written out and the list form of a neighborhood make no difference. The one exception is a seed
that YAML reads otherwise than its value.
-/

namespace LargeNeighborhood

/-! ## TOML documents as trees -/

namespace Toml

/-- The tree of a text. A date stands for the mapping it is handed over as. -/
def tree? (text : String) : Option Tree := do
  (Content.map (entriesContent (← parse text))).tree?

theorem seed?_of_tree? {item : Item} {t : Tree} (h : item.content.tree? = some t) :
    item.seed? = t.seed? := by
  cases item with
  | integer i =>
    cases Content.shows_of_tree? h with
    | signed _ hmin hmax =>
      rw [Item.seed?]
      split
      case isTrue hnonneg =>
        have hmax' : Int64.maxValue.toInt < UInt64.size := by decide
        obtain ⟨n, rfl⟩ := Int.eq_ofNat_of_zero_le hnonneg
        rw [Tree.seed?_natCast (by omega), Int.toNat_natCast]
      case isFalse hneg => rw [Tree.seed?_of_neg (Int.not_le.mp hneg)]
  | _ => cases Content.shows_of_tree? h; rfl

theorem forall₂_of_entriesContent {root : Entries} {es : List (String × Tree)}
    (h : List.Forall₂ Content.EntryShows (entriesContent root) es) :
    List.Forall₂ (fun entry e => entry.1 = e.1 ∧ entry.2.content.tree? = some e.2) root es := by
  induction root generalizing es with
  | nil =>
    cases h
    exact .nil
  | cons entry root ih =>
    obtain ⟨name, item⟩ := entry
    cases h with
    | cons hentry hentries => exact .cons ⟨Content.text.inj hentry.1, hentry.2⟩ (ih hentries)

theorem toOption_fromToml (text : String) :
    (Config.fromToml text).toOption = Config.ofToml? text := by
  rw [Config.fromToml]
  cases Config.ofToml? text <;> rfl

theorem fromToml_eq_ofTree {text : String} {t : Tree} (h : tree? text = some t) :
    (Config.fromToml text).toOption = Config.ofTree t := by
  rw [tree?, Option.bind_eq_bind, Option.bind_eq_some_iff] at h
  obtain ⟨root, hparse, htree⟩ := h
  rw [toOption_fromToml, Config.ofToml?, hparse, Option.bind_eq_bind, Option.bind_some]
  cases Content.shows_of_tree? htree with
  | @map _ es hshows hnodup =>
    have hlookup (key : String) := lookup_rel (R := fun item t => item.content.tree? = some t)
      ((forall₂_of_entriesContent hshows).imp fun _ _ h => ⟨h.1, fun _ : _ = key => h.2⟩)
    have hseed : (root.lookup "random_seed").mapM Item.seed? =
        (es.lookup "random_seed").mapM Tree.seed? :=
      mapM_eq_of_rel (hlookup _) fun _ _ => seed?_of_tree?
    have hneighbor : ((root.lookup "neighbor").map Item.content).mapM Settings.ofContent =
        (es.lookup "neighbor").mapM Settings.ofTree := by
      rw [← mapM_eq_of_rel (hlookup _) fun _ _ => Settings.ofContent_eq_ofTree]
      cases root.lookup "neighbor" <;> rfl
    rw [Config.ofTomlEntries, Config.ofTree, hseed]
    simp only [Config.ofParts_eq, hneighbor]

end Toml

/-! ## Both formats -/

inductive Format
  | toml
  | yaml

namespace Format

def read : Format → String → Except ReadError Config
  | .toml => Config.fromToml
  | .yaml => Config.fromYaml

def tree? : Format → String → Option Tree
  | .toml => Toml.tree?
  | .yaml => Yaml.tree?

/-- The seed of a text is read otherwise than its value, which only happens in YAML. -/
def misreadsSeed : Format → String → Bool
  | .toml, _ => false
  | .yaml, text => Yaml.misreadsSeed text

/-- The three ways of misreading a seed: a zero with a minus sign, a quoted integer and plain digits
that are a text. Beside each stands a TOML text of the same tree. -/
theorem misread_seeds_differ :
    (Format.toml.tree? "random_seed = 0\n" = some (.map [("random_seed", .integer 0)]) ∧
      Format.yaml.tree? "random_seed: -0\n" = some (.map [("random_seed", .integer 0)]) ∧
      Config.fromToml "random_seed = 0\n" = .ok ⟨some 0, .standard⟩ ∧
      Config.fromYaml "random_seed: -0\n" = .error .yaml) ∧
    (Format.toml.tree? "random_seed = 5\n" = some (.map [("random_seed", .integer 5)]) ∧
      Format.yaml.tree? "random_seed: !!int '5'\n" = some (.map [("random_seed", .integer 5)]) ∧
      Config.fromToml "random_seed = 5\n" = .ok ⟨some 5, .standard⟩ ∧
      Config.fromYaml "random_seed: !!int '5'\n" = .error .yaml) ∧
    (Format.toml.tree? "random_seed = '5'\n" = some (.map [("random_seed", .text "5")]) ∧
      Format.yaml.tree? "random_seed: !!str 5\n" = some (.map [("random_seed", .text "5")]) ∧
      Config.fromToml "random_seed = '5'\n" = .error .toml ∧
      Config.fromYaml "random_seed: !!str 5\n" = .ok ⟨some 5, .standard⟩) := by
  refine ⟨⟨?_, ?_, ?_, ?_⟩, ⟨?_, ?_, ?_, ?_⟩, ?_, ?_, ?_, ?_⟩ <;> decide +kernel

theorem toOption_read {format : Format} {text : String} {t : Tree} (h : format.tree? text = some t)
    (hread : format.misreadsSeed text = false) : (format.read text).toOption = Config.ofTree t := by
  cases format with
  | toml => exact Toml.fromToml_eq_ofTree h
  | yaml => exact Yaml.fromYaml_eq_ofTree h hread

/-- Texts of alike trees, each in either format, are read as the same configuration or not at
all. -/
theorem read_alike {t t' : Tree} (halike : t.Alike t') {format format' : Format}
    {text text' : String} (h : format.tree? text = some t) (h' : format'.tree? text' = some t')
    (hread : format.misreadsSeed text = false) (hread' : format'.misreadsSeed text' = false) :
    (format.read text).toOption = (format'.read text').toOption := by
  rw [toOption_read h hread, toOption_read h' hread', halike.config_eq]

theorem read_table_and_list :
    let toml :=
      "random_seed = 7\n[neighbor]\nprop_fix_values = 1\ntype = \"random_grouped_by_value\"\n"
    let yaml := "extra: [x]\nneighbor: [random_grouped_by_value, 1]\nrandom_seed: !!int 7\n"
    (Format.toml.read toml).toOption = some ⟨some 7, ⟨Binary64.ofNat 1, 10⟩⟩ ∧
      (Format.toml.read toml).toOption = (Format.yaml.read yaml).toOption := by
  intro toml yaml
  let seed := ("random_seed", Tree.integer 7)
  let kind := Tree.text "random_grouped_by_value"
  let table := Tree.map [("prop_fix_values", .integer 1), ("type", kind)]
  let list := Tree.list [kind, .integer 1]
  have hsorted : Tree.Edit .neighborhood table
      (.map [("type", kind), ("prop_fix_values", .integer 1)]) :=
    .reorder _ (by decide +kernel) (.swap _ _ _)
  have hlisted : Tree.Edit .neighborhood
      (.map [("type", kind), ("prop_fix_values", .integer 1)]) list :=
    .listed [kind, .integer 1] (by decide)
  have hmoved : Tree.Edit .root (.map [seed, ("neighbor", list)])
      (.map [("neighbor", list), seed]) :=
    .reorder _ (by decide +kernel) (.swap _ _ _)
  have hadded : Tree.Edit .root (.map [("neighbor", list), seed])
      (.map [("extra", .list [.text "x"]), ("neighbor", list), seed]) :=
    .add _ _ _ _ (by decide)
  have hsort : Tree.Alike _ _ := .rel _ _ (.value .root "neighbor" [seed] [] hsorted)
  have hlist : Tree.Alike _ _ := .rel _ _ (.value .root "neighbor" [seed] [] hlisted)
  have hmove : Tree.Alike _ _ := .rel _ _ hmoved
  have hadd : Tree.Alike _ _ := .rel _ _ hadded
  have halike := (hsort.trans _ _ _ hlist).trans _ _ _ (hmove.trans _ _ _ hadd)
  have htoml : Format.toml.tree? toml = some (.map [seed, ("neighbor", table)]) := by decide +kernel
  have hyaml : Format.yaml.tree? yaml =
      some (.map [("extra", .list [.text "x"]), ("neighbor", list), seed]) := by decide +kernel
  have hread : Format.yaml.misreadsSeed yaml = false := by decide +kernel
  exact ⟨by decide +kernel, read_alike halike htoml hyaml rfl hread⟩

end Format

end LargeNeighborhood
