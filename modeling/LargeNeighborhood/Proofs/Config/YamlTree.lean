import LargeNeighborhood.Config.File
import LargeNeighborhood.Proofs.Config.Tree
import LargeNeighborhood.Proofs.Yaml.Cost
import LargeNeighborhood.Proofs.Yaml.Value

/-!
# YAML documents as trees

A document is read as a tree when the content of its root has one. Reading a configuration looks at
no more of the document than that, takes no more jumps along aliases, and comes to the decoding of
the tree, unless the seed is a scalar that is read otherwise than its value.
-/

namespace LargeNeighborhood.Yaml

def tree? (text : String) : Option Tree := do
  let d ← Document.parse text
  match d.root with
  | some (.mapping tag entries) =>
    let root := Node.mapping tag entries
    let (content, _) ← Reading.content depthLimit root d (100 * root.parts)
    content.tree?
  | _ => none

def Document.target (d : Document) (node : Node) : Option Node :=
  match node with
  | .alias number => d.resolve number
  | node => some node

/-- A scalar that a seed is read from as if it were another value: a zero with a minus sign, an
integer tagged as one that is neither plain nor literal, and plain digits whose tag makes them
something else. -/
def Node.isMisread : Node → Bool
  | .scalar tag style text =>
    match scalarContent tag style text with
    | some (.unsigned _) => decide (style ≠ .plain ∧ style ≠ .literal)
    | some (.signed i) => decide (i = 0)
    | _ => decide (style = .plain) && (unsigned? text).any fun n => n < UInt64.size
  | _ => false

def Node.isSeedKey : Node → Bool
  | .scalar _ _ text => String.ofList text == "random_seed"
  | _ => false

def Document.misreads (d : Document) (entry : Node × Node) : Bool :=
  (d.target entry.1).any Node.isSeedKey && (d.target entry.2).any Node.isMisread

/-- The seed of a text is read otherwise than its value. -/
def misreadsSeed (text : String) : Bool :=
  match Document.parse text with
  | some d =>
    match d.root with
    | some (.mapping _ entries) => entries.any d.misreads
    | _ => false
  | none => false

namespace Reading

theorem isWord_kind : IsWord Config.kind.toList where
  plain := by rfl
  not_null := by decide +kernel
  not_boolean := by decide +kernel
  not_integer := by rfl
  not_float := by decide +kernel

variable {d : Document} {depth cost : Nat} {node target : Node} {c : Content} {t : Tree}

theorem target_of_costs (h : Costs (follow node) d target cost) : d.target node = some target := by
  have hrun := h 0
  cases node with
  | scalar => exact congrArg some (Prod.mk.inj (Option.some.inj hrun)).1
  | sequence => exact congrArg some (Prod.mk.inj (Option.some.inj hrun)).1
  | mapping => exact congrArg some (Prod.mk.inj (Option.some.inj hrun)).1
  | _ number =>
    cases cost with
    | zero => cases hrun
    | succ cost =>
      rw [Nat.zero_add, follow_alias, Option.map_eq_some_iff] at hrun
      obtain ⟨_, hresolve, hrun⟩ := hrun
      rw [← (Prod.mk.inj hrun).1]
      exact hresolve

theorem gives_key {name : String} (h : Costs (content depth node) d (.text name) cost) :
    Gives (rawText node) d (some name) cost := by
  obtain ⟨target, first, second, rfl, hfollow, hholds⟩ := h.of_content
  cases hholds with
  | scalar tag style text hvalue =>
    cases reads_of_scalarContent hvalue
    exact hfollow.gives_bind ((Gives.pure _).mono (Nat.zero_le _))

theorem gives_kind (h : Costs (content depth node) d c cost) (htree : c.tree? = some t) :
    ∃ o, Gives (rawText node) d o cost ∧ (o = some Config.kind ↔ t = .text Config.kind) := by
  obtain ⟨target, first, second, rfl, hfollow, hholds⟩ := h.of_content
  cases hholds with
  | scalar tag style text hvalue =>
    refine ⟨some (String.ofList text), ?_, ?_, ?_⟩
    · exact hfollow.gives_bind ((Gives.pure _).mono (Nat.zero_le _))
    · intro hkind
      obtain rfl : text = Config.kind.toList := by
        rw [← Option.some.inj hkind, String.toList_ofList]
      rw [isWord_kind.content_eq hvalue, String.ofList_toList] at htree
      exact (Option.some.inj htree).symm
    · rintro rfl
      rw [Content.tree?_eq_text_iff.mp htree] at hvalue
      generalize hword : Config.kind = word at hvalue
      cases reads_of_scalarContent hvalue
      rfl
  | _ =>
    refine ⟨none, hfollow.gives_bind (Gives.failure _), nofun, ?_⟩
    rintro rfl
    cases Content.tree?_eq_text_iff.mp htree

/-- An entry of a neighborhood: the text that names its kind is taken as it is written. -/
def neighborEntry (depth : Nat) (entry : Node × Node) : Reading (Content × Content) := do
  let key ← content depth entry.1
  if key.isKindKey then
    return (key, .text (← rawText entry.2))
  else
    return (key, ← content depth entry.2)

theorem gives_neighborEntry {entry : Node × Node} {contents : Content × Content} {e : String × Tree}
    (h : Costs (pair depth entry) d contents cost) (hshows : Content.EntryShows contents e) :
    ∃ o, Gives (neighborEntry depth entry) d o cost ∧
      (∀ contents ∈ o, Settings.EntryDecodes contents e) ∧
      (o = none → e.1 = "type" ∧ e.2 ≠ .text Config.kind) := by
  obtain ⟨first, second, rfl, hkey, hvalue⟩ := h.of_pair
  obtain ⟨key, value⟩ := contents
  obtain ⟨name, tree⟩ := e
  obtain ⟨rfl, htree⟩ := hshows
  by_cases hname : name = "type"
  · subst hname
    obtain ⟨o, hraw, hkind⟩ := gives_kind hvalue htree
    refine ⟨o.map fun s => (.text "type", .text s), ?_, ?_, ?_⟩
    · rw [neighborEntry]
      exact hkey.gives_bind (Gives.map _ hraw)
    · intro contents hcontents
      obtain ⟨s, rfl, rfl⟩ := Option.map_eq_some_iff.mp hcontents
      refine ⟨rfl, ?_⟩
      rw [if_pos rfl, ← hkind, Option.some.injEq, Content.text.injEq]
    · intro hnone
      rw [Option.map_eq_none_iff.mp hnone] at hkind
      exact ⟨rfl, fun htree => nomatch hkind.mpr htree⟩
  · refine ⟨some (.text name, value), ?_, ?_, nofun⟩
    · rw [neighborEntry]
      apply hkey.gives_bind
      have hkey : ¬ (Content.text name).isKindKey = true := by simpa [Content.isKindKey] using hname
      rw [if_neg hkey]
      exact Gives.map _ hvalue.gives
    · rintro _ ⟨⟩
      exact Settings.entryDecodes_of_entryShows ⟨rfl, htree⟩

theorem gives_neighborEntries {entries : List (Node × Node)} {contents : List (Content × Content)}
    {es : List (String × Tree)} (h : Costs (entries.mapM (pair depth)) d contents cost)
    (hshows : List.Forall₂ Content.EntryShows contents es) :
    ∃ o, Gives (entries.mapM (neighborEntry depth)) d o cost ∧
      (∀ contents ∈ o, List.Forall₂ Settings.EntryDecodes contents es) ∧
      (o = none → ∃ t, ("type", t) ∈ es ∧ t ≠ .text Config.kind) := by
  induction entries generalizing contents es cost with
  | nil =>
    obtain ⟨rfl, rfl⟩ := h.of_pure
    cases hshows
    refine ⟨some [], Gives.pure [], ?_, nofun⟩
    rintro _ ⟨⟩
    exact .nil
  | cons entry entries ih =>
    obtain ⟨head, tail, first, second, rfl, rfl, hhead, htail⟩ := h.of_cons (steady_pair depth)
    cases hshows with
    | @cons _ e _ es hshow hshows =>
      obtain ⟨o, hgives, hdecodes, hnone⟩ := gives_neighborEntry hhead hshow
      obtain ⟨o', hgives', hdecodes', hnone'⟩ := ih htail hshows
      refine ⟨o.bind fun r => o'.map fun rs => r :: rs, ?_, ?_, ?_⟩
      · rw [List.mapM_cons]
        exact hgives.bind fun r _ => Gives.map _ hgives'
      · intro rs hrs
        obtain ⟨r, hr, hrs⟩ := Option.bind_eq_some_iff.mp hrs
        obtain ⟨rs, hrest, rfl⟩ := Option.map_eq_some_iff.mp hrs
        exact .cons (hdecodes r hr) (hdecodes' rs hrest)
      · intro hfail
        cases o with
        | none =>
          obtain ⟨hname, hkind⟩ := hnone rfl
          exact ⟨e.2, by rw [← hname]; exact List.mem_cons_self, hkind⟩
        | some r =>
          obtain ⟨t, hmem, hkind⟩ := hnone' (Option.map_eq_none_iff.mp hfail)
          exact ⟨t, List.mem_cons_of_mem _ hmem, hkind⟩

theorem gives_neighborItems {kind : Node} {items : List Node} {contents : List Content}
    {trees : List Tree} (h : Costs ((kind :: items).mapM (content depth)) d contents cost)
    (hshows : List.Forall₂ (fun c t => c.tree? = some t) contents trees) :
    ∃ o, Gives (do return Content.list (.text (← rawText kind) :: (← items.mapM (content depth))))
        d o cost ∧
      o.bind Settings.ofContent = Settings.ofTree (.list trees) := by
  obtain ⟨head, tail, first, second, rfl, rfl, hkind, htail⟩ := h.of_cons (steady_content depth)
  cases hshows with
  | @cons _ kindTree _ trees hhead hshows =>
    obtain ⟨o, hraw, hiff⟩ := gives_kind hkind hhead
    refine ⟨o.bind fun s => some (.list (.text s :: tail)), ?_, ?_⟩
    · exact hraw.bind fun s _ => Gives.map _ htail.gives
    · cases o with
      | none =>
        have hnull : Content.null = .text Config.kind ↔ kindTree = .text Config.kind := by
          simpa using hiff
        exact Settings.ofContent_list hnull hshows
      | some s =>
        rw [Option.some.injEq, ← Content.text.injEq] at hiff
        exact Settings.ofContent_list hiff hshows

theorem gives_neighborhood (h : Costs (content (depth + 1) node) d c cost)
    (htree : c.tree? = some t) :
    ∃ o, Gives (neighborhood depth node) d o cost ∧
      o.bind Settings.ofContent = Settings.ofTree t := by
  obtain ⟨target, first, second, rfl, hfollow, hholds⟩ := h.of_content
  cases hholds with
  | scalar tag style text hvalue =>
    refine ⟨none, hfollow.gives_bind (Gives.failure _), ?_⟩
    cases reads_of_scalarContent hvalue <;> cases Content.shows_of_tree? htree <;> rfl
  | @mapping _ contents tag entries hlocal hentries =>
    cases Content.shows_of_tree? htree with
    | @map _ es hshows hnodup =>
      obtain ⟨o, hgives, hdecodes, hnone⟩ := gives_neighborEntries hentries hshows
      refine ⟨o.map .map, ?_, ?_⟩
      · exact hfollow.gives_bind (Gives.refused hlocal (Gives.map _ hgives))
      · cases o with
        | some contents => exact Settings.ofContent_map (hdecodes contents rfl) hnodup
        | none =>
          obtain ⟨t, hmem, hkind⟩ := hnone rfl
          have hlookup := (lookup_eq_some_iff_mem hnodup).mpr hmem
          exact (if_neg fun h => hkind (Option.some.inj (hlookup.symm.trans h))).symm
  | @sequence _ contents tag items hlocal hitems =>
    cases Content.shows_of_tree? htree with
    | @list _ trees hshows =>
      cases items with
      | nil =>
        obtain ⟨rfl, rfl⟩ := hitems.of_pure
        cases hshows
        exact ⟨none, hfollow.gives_bind (Gives.failure _), by decide +kernel⟩
      | cons kind items =>
        obtain ⟨o, hgives, ho⟩ := gives_neighborItems hitems hshows
        exact ⟨o, hfollow.gives_bind (Gives.refused hlocal hgives), ho⟩

def seedDigits (text : List Char) : Reading (Option UInt64) := do
  let n ← unsigned? text
  if n < UInt64.size then return some (UInt64.ofNat n) else failure

theorem gives_seedDigits {text : List Char} {n : Nat} (htext : unsigned? text = some n)
    (hlt : n < UInt64.size) (cost : Nat) :
    Gives (seedDigits text) d (some (some (UInt64.ofNat n))) cost := by
  intro jumps _
  refine ⟨jumps, Nat.le_add_right _ _, ?_⟩
  rw [seedDigits, htext, bind_apply, liftM_apply, Option.map_some, Option.bind_some, if_pos hlt]
  rfl

theorem gives_seedDigits_none {text : List Char}
    (htext : (unsigned? text).any (fun n => n < UInt64.size) = false) (cost : Nat) :
    Gives (seedDigits text) d none cost := by
  intro jumps _
  refine ⟨jumps, Nat.le_add_right _ _, ?_⟩
  rw [seedDigits, bind_apply, liftM_apply]
  cases hn : unsigned? text with
  | none => rfl
  | some n =>
    rw [hn] at htext
    rw [Option.map_some, Option.bind_some, if_neg (of_decide_eq_false htext)]
    rfl

def seedScalar (tag : Option TagBytes) (style : Style) (text : List Char) :
    Reading (Option UInt64) :=
  if style = .plain ∨ (style = .literal ∧ tag = some (coreTag "int")) then seedDigits text
  else failure

section

variable {tag : Option TagBytes} {style : Style} {text : List Char}

theorem not_null_of_tree? (hvalue : scalarContent tag style text = some c)
    (htree : c.tree? = some t) :
    ¬ (style = .plain ∧ tag = some (coreTag "null")) ∧
      ¬ (style = .plain ∧ tag = none ∧ (text.isEmpty ∨ isNull text)) := by
  constructor
  · rintro ⟨-, rfl⟩
    cases null_of_nullTag hvalue
    cases htree
  · rintro ⟨rfl, rfl, hempty⟩
    have hvalue : plainContent text = some c := hvalue
    rw [plainContent_null hempty] at hvalue
    cases hvalue
    cases htree

theorem gives_seedScalar_none (htag : tag ≠ some (coreTag "int"))
    (hread : (decide (style = .plain) && (unsigned? text).any fun n => n < UInt64.size) = false)
    (cost : Nat) : Gives (seedScalar tag style text) d none cost := by
  rw [seedScalar]
  split
  case isTrue hstyle =>
    obtain rfl : style = .plain := hstyle.resolve_right fun h => htag h.2
    exact gives_seedDigits_none hread cost
  case isFalse => exact Gives.failure cost

/-- Only an integer is a seed, and no scalar but a misread one hides its integer. -/
theorem gives_seedScalar (hvalue : scalarContent tag style text = some c)
    (htree : c.tree? = some t) (hread : (Node.scalar tag style text).isMisread = false)
    (cost : Nat) : Gives (seedScalar tag style text) d (t.seed?.map some) cost := by
  simp only [Node.isMisread, hvalue] at hread
  cases reads_of_scalarContent hvalue with
  | null => cases htree
  | boolean b htag => cases htree; exact gives_seedScalar_none htag hread cost
  | float x htag => cases htree; exact gives_seedScalar_none htag hread cost
  | text htag => cases htree; exact gives_seedScalar_none htag hread cost
  | unsigned n htext hstyle =>
    cases Content.shows_of_tree? htree with
    | unsigned _ hle =>
      have hlt : n < UInt64.size := by
        have hmax : Int64.maxValue.toInt < UInt64.size := by decide
        omega
      have hstyle : style = .plain ∨ (style = .literal ∧ tag = some (coreTag "int")) := by
        by_cases hplain : style = .plain
        · exact .inl hplain
        · exact .inr ⟨by_contra fun h => of_decide_eq_false hread ⟨hplain, h⟩,
            hstyle.resolve_left hplain⟩
      rw [seedScalar, if_pos hstyle, Tree.seed?_natCast hlt]
      exact gives_seedDigits htext hlt cost
  | signed n htext =>
    cases Content.shows_of_tree? htree with
    | signed _ hmin hmax =>
      have hnonzero := of_decide_eq_false hread
      rw [Tree.seed?_of_neg (by omega), seedScalar]
      split
      · exact gives_seedDigits_none (by rw [htext]; rfl) cost
      · exact Gives.failure cost

end

/-- A seed is read as its tree says, unless it is misread. -/
theorem gives_seed (h : Costs (content depth node) d c cost) (htree : c.tree? = some t)
    (hread : ∀ target ∈ d.target node, target.isMisread = false) :
    Gives (seed node) d (t.seed?.map some) cost := by
  obtain ⟨target, first, second, rfl, hfollow, hholds⟩ := h.of_content
  apply hfollow.gives_bind
  cases hholds with
  | scalar tag style text hvalue =>
    obtain ⟨hnull, hempty⟩ := not_null_of_tree? hvalue htree
    dsimp only
    rw [if_neg hnull, if_neg hempty]
    exact gives_seedScalar hvalue htree (hread _ (target_of_costs hfollow)) second
  | sequence =>
    cases Content.shows_of_tree? htree
    exact Gives.failure _
  | mapping =>
    cases Content.shows_of_tree? htree
    exact Gives.failure _

section

variable {parts : Parts} {entry : Node × Node} {name : String} {first second : Nat}

theorem gives_entry_seed {o : Option (Option UInt64)}
    (hkey : Costs (content depth entry.1) d (.text "random_seed") first)
    (hvalue : Gives (seed entry.2) d o second) (hparts : parts.seed = none) :
    Gives (Reading.entry parts entry) d (o.map fun seed => { parts with seed := some seed })
      (first + second) := by
  refine (gives_key hkey).bind (g := fun _ => o.map fun seed => { parts with seed := some seed }) ?_
  rintro _ ⟨⟩
  dsimp only
  apply Gives.refused
  · simp [hparts]
  · exact Gives.map _ hvalue

theorem gives_entry_neighbor {o : Option Content}
    (hkey : Costs (content depth entry.1) d (.text "neighbor") first)
    (hvalue : Gives (neighborhood (depthLimit - 2) entry.2) d o second)
    (hparts : parts.neighborhood = none) :
    Gives (Reading.entry parts entry) d
      (o.map fun content => { parts with neighborhood := some content })
      (first + second) := by
  refine (gives_key hkey).bind
    (g := fun _ => o.map fun content => { parts with neighborhood := some content }) ?_
  rintro _ ⟨⟩
  dsimp only
  apply Gives.refused
  · simp [hparts]
  · exact Gives.map _ hvalue

theorem gives_entry_unknown (hkey : Costs (content depth entry.1) d (.text name) first)
    (hseed : name ≠ "random_seed") (hneighbor : name ≠ "neighbor") :
    Gives (Reading.entry parts entry) d (some parts) first := by
  show Gives _ d _ (first + 0)
  refine (gives_key hkey).bind (g := fun _ => some parts) ?_
  rintro _ ⟨⟩
  split
  · exact absurd rfl hseed
  · exact absurd rfl hneighbor
  · exact Gives.pure parts

theorem isSeedKey_of_content (h : Costs (content depth node) d (.text "random_seed") cost) :
    (d.target node).any Node.isSeedKey = true := by
  obtain ⟨target, first, second, rfl, hfollow, hholds⟩ := h.of_content
  rw [target_of_costs hfollow]
  cases hholds with
  | scalar tag style text hvalue =>
    generalize hname : "random_seed" = name at hvalue
    cases reads_of_scalarContent hvalue
    exact beq_iff_eq.mpr hname.symm

/-- The configuration of what has been read and of the entries to come. -/
def Parts.extend (parts : Parts) (entry : String → Option Tree) : Option Config := do
  let seed ← (entry "random_seed").mapM Tree.seed?
  let settings ← (entry "neighbor").mapM Settings.ofTree
  let given ← parts.neighborhood.mapM Settings.ofContent
  return ⟨seed.or (parts.seed.getD none), (settings.or given).getD .standard⟩

theorem Parts.extend_none : (parts.extend fun _ => none) =
    Config.ofParts (parts.seed.getD none) parts.neighborhood := by
  rw [Config.ofParts_eq]
  simp [extend]

variable {es : List (String × Tree)}

theorem Parts.extend_seed (neighborhood : Option Content) (hnew : "random_seed" ∉ es.map Prod.fst) :
    (extend ⟨none, neighborhood⟩ fun key => (("random_seed", t) :: es).lookup key) =
      (t.seed?.map some).bind fun seed =>
        extend ⟨some seed, neighborhood⟩ fun key => es.lookup key := by
  have hlater : es.lookup "random_seed" = none := lookup_eq_none_of_not_mem hnew
  cases hseed : t.seed? with
  | none => simp [extend, hseed]
  | some seed => simp [extend, lookup_cons_ne, hseed, hlater]

theorem Parts.extend_neighbor {o : Option Content} (seed : Option (Option UInt64))
    (ho : o.bind Settings.ofContent = Settings.ofTree t) (hnew : "neighbor" ∉ es.map Prod.fst) :
    (extend ⟨seed, none⟩ fun key => (("neighbor", t) :: es).lookup key) =
      o.bind fun content => extend ⟨seed, some content⟩ fun key => es.lookup key := by
  have hlater : es.lookup "neighbor" = none := lookup_eq_none_of_not_mem hnew
  cases o with
  | none =>
    have hnone : Settings.ofTree t = none := ho.symm
    simp [extend, lookup_cons_ne, hnone]
  | some content =>
    have hcontent : Settings.ofContent content = Settings.ofTree t := ho
    simp [extend, lookup_cons_ne, hcontent, hlater]

def Parts.Free (parts : Parts) (names : List String) : Prop :=
  (parts.seed.isSome → "random_seed" ∉ names) ∧ (parts.neighborhood.isSome → "neighbor" ∉ names)

theorem gives_entry {contents : Content × Content} {e : String × Tree}
    (h : Costs (pair (depthLimit - 1) entry) d contents cost)
    (hshow : Content.EntryShows contents e)
    (hread : d.misreads entry = false) (hfree : parts.Free ((e :: es).map Prod.fst))
    (hnew : e.1 ∉ es.map Prod.fst) :
    ∃ o, Gives (Reading.entry parts entry) d o cost ∧
      (∀ parts ∈ o, parts.Free (es.map Prod.fst)) ∧
      (parts.extend fun key => (e :: es).lookup key) =
        o.bind fun parts => parts.extend fun key => es.lookup key := by
  obtain ⟨first, second, rfl, hkey, hvalue⟩ := h.of_pair
  obtain ⟨key, value⟩ := contents
  obtain ⟨name, tree⟩ := e
  obtain ⟨rfl, htree⟩ := hshow
  obtain ⟨seed, neighborhood⟩ := parts
  simp only [Parts.Free, List.map_cons, List.mem_cons, not_or] at hfree
  by_cases hname : name = "random_seed"
  · subst hname
    -- the key is new, so no seed was read before this entry
    obtain rfl : seed = none := Option.not_isSome_iff_eq_none.mp fun h => (hfree.1 h).1 rfl
    have hseed := gives_seed hvalue htree fun target htarget => by
      rw [Document.misreads, isSeedKey_of_content hkey, Bool.true_and, htarget] at hread
      exact hread
    refine ⟨_, gives_entry_seed hkey hseed rfl, ?_, ?_⟩
    · intro parts hparts
      obtain ⟨seed, _, rfl⟩ := Option.map_eq_some_iff.mp hparts
      exact ⟨fun _ => hnew, fun h => (hfree.2 h).2⟩
    · rw [Parts.extend_seed neighborhood hnew]
      cases tree.seed? <;> rfl
  · by_cases hother : name = "neighbor"
    · subst hother
      obtain rfl : neighborhood = none :=
        Option.not_isSome_iff_eq_none.mp fun h => (hfree.2 h).1 rfl
      obtain ⟨o, hgives, ho⟩ := gives_neighborhood hvalue htree
      refine ⟨_, gives_entry_neighbor hkey hgives rfl, ?_, ?_⟩
      · intro parts hparts
        obtain ⟨content, _, rfl⟩ := Option.map_eq_some_iff.mp hparts
        exact ⟨fun h => (hfree.1 h).2, fun _ => hnew⟩
      · rw [Parts.extend_neighbor seed ho hnew]
        cases o <;> rfl
    · refine ⟨_, (gives_entry_unknown hkey hname hother).mono (Nat.le_add_right _ _), ?_, ?_⟩
      · rintro _ ⟨⟩
        exact ⟨fun h => (hfree.1 h).2, fun h => (hfree.2 h).2⟩
      · simp only [Parts.extend, lookup_cons_ne hname, lookup_cons_ne hother, Option.bind_some]

theorem gives_entries {entries : List (Node × Node)} {contents : List (Content × Content)}
    (h : Costs (entries.mapM (pair (depthLimit - 1))) d contents cost)
    (hshows : List.Forall₂ Content.EntryShows contents es) (hnodup : (es.map Prod.fst).Nodup)
    (hread : ∀ entry ∈ entries, d.misreads entry = false) (hfree : parts.Free (es.map Prod.fst)) :
    ∃ o, Gives (entries.foldlM Reading.entry parts) d o cost ∧
      o.bind (fun parts => Config.ofParts (parts.seed.getD none) parts.neighborhood) =
        parts.extend fun key => es.lookup key := by
  induction entries generalizing contents es cost parts with
  | nil =>
    obtain ⟨rfl, rfl⟩ := h.of_pure
    cases hshows
    exact ⟨some parts, Gives.pure parts, Parts.extend_none.symm⟩
  | cons entry entries ih =>
    obtain ⟨head, tail, first, second, rfl, rfl, hhead, htail⟩ := h.of_cons (steady_pair _)
    cases hshows with
    | @cons _ e _ es hshow hshows =>
      rw [List.map_cons, List.nodup_cons] at hnodup
      obtain ⟨o, hgives, hfree, hextend⟩ :=
        gives_entry hhead hshow (hread entry List.mem_cons_self) hfree hnodup.1
      rw [hextend, List.foldlM_cons]
      cases o with
      | none => exact ⟨none, hgives.bind (g := fun _ => none) nofun, rfl⟩
      | some parts =>
        obtain ⟨o, hrest, ho⟩ := ih htail hshows hnodup.2
          (fun entry hentry => hread entry (List.mem_cons_of_mem _ hentry)) (hfree parts rfl)
        refine ⟨o, hgives.bind (g := fun _ => o) ?_, ho⟩
        rintro _ ⟨⟩
        exact hrest

end

/-- A root that has a tree is read as the tree says, with the jumps its content takes. -/
theorem gives_config {tag : Option TagBytes} {entries : List (Node × Node)}
    (h : Costs (content depthLimit (.mapping tag entries)) d c cost) (htree : c.tree? = some t)
    (hread : entries.any d.misreads = false) :
    Gives (config (some (.mapping tag entries))) d (Config.ofTree t) cost := by
  have h : Costs (content (depthLimit - 1 + 1) (.mapping tag entries)) d c cost := h
  obtain ⟨target, first, second, rfl, hfollow, hholds⟩ := h.of_content
  obtain rfl : Node.mapping tag entries = target := Option.some.inj (target_of_costs hfollow)
  cases hholds with
  | @mapping _ contents _ _ _ hentries =>
    cases Content.shows_of_tree? htree with
    | @map _ es hshows hnodup =>
      have hread := fun entry hentry =>
        Bool.eq_false_iff.mpr (List.any_eq_false.mp hread entry hentry)
      have hfree : (Parts.mk none none).Free (es.map Prod.fst) := ⟨nofun, nofun⟩
      obtain ⟨o, hgives, ho⟩ := gives_entries hentries hshows hnodup hread hfree
      have hconfig : (Parts.extend ⟨none, none⟩ fun key => es.lookup key) =
          Config.ofTree (.map es) := by
        simp [Parts.extend, Config.ofTree]
      rw [← hconfig, ← ho]
      refine Gives.mono ?_ (Nat.le_add_left second first)
      exact hgives.bind fun parts _ => Gives.liftM _

end Reading

theorem toOption_fromYaml (text : String) :
    (Config.fromYaml text).toOption = Config.ofYaml? text := by
  rw [Config.fromYaml]
  cases Config.ofYaml? text <;> rfl

/-- A configuration is read from a YAML text as from its tree, unless the seed is misread. -/
theorem fromYaml_eq_ofTree {text : String} {t : Tree} (h : tree? text = some t)
    (hread : misreadsSeed text = false) : (Config.fromYaml text).toOption = Config.ofTree t := by
  rw [tree?, Option.bind_eq_bind, Option.bind_eq_some_iff] at h
  obtain ⟨d, hparse, h⟩ := h
  rw [misreadsSeed, hparse] at hread
  rw [toOption_fromYaml, Config.ofYaml?, hparse]
  cases hroot : d.root with
  | none => rw [hroot] at h; cases h
  | some root =>
    rw [hroot] at h
    cases root with
    | mapping tag entries =>
      simp only [hroot] at hread
      rw [Option.bind_eq_bind, Option.bind_eq_some_iff] at h
      obtain ⟨⟨content, left⟩, hcontent, htree⟩ := h
      obtain ⟨cost, hjumps, hcosts⟩ := Reading.steady_content depthLimit _ hcontent
      obtain ⟨rest, _, hconfig⟩ :=
        Reading.gives_config hcosts htree hread _ (Nat.le_of_add_left_le hjumps.ge)
      rw [Option.bind_eq_bind, Option.bind_some, Config.ofYamlDocument, hroot]
      refine (congrArg (Option.map Prod.fst) hconfig).trans ?_
      rw [Option.map_map]
      exact Option.map_id'
    | _ => cases h

end LargeNeighborhood.Yaml
