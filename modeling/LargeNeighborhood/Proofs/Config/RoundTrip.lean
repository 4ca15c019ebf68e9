import LargeNeighborhood.Config.File
import LargeNeighborhood.Proofs.Toml.Document
import LargeNeighborhood.Proofs.Yaml.Reading
import LargeNeighborhood.Proofs.Yaml.Resolve
import LargeNeighborhood.Proofs.Yaml.Token

/-!
# Configurations are read back as they were written

A written configuration is a root with at most two entries and a neighborhood with three. In both
formats its text is laid out a line after the other, each line is read as one entry, and the entries
decode to the seed and the settings that were written. Numbers go out as digits and come back from
them; only the seed can fail to be written, where the format has no integer for it.
-/

namespace LargeNeighborhood.Config

open Toml

/-! ## TOML -/

theorem bareKey_of_all {k : List Char} (hne : k ≠ []) (hk : k.all isBareKeyChar = true) :
    BareKey k :=
  ⟨hne, List.all_eq_true.mp hk⟩

def tomlEntries (s : Settings) : Entries :=
  [("type", .text kind), ("prop_fix_values", .float s.proportion),
    ("level", .integer s.level.toNat)]

theorem tomlNeighborhood_lines (k f l : List Char) :
    "[neighbor]\ntype = \"".toList ++ k ++ "\"\nprop_fix_values = ".toList ++ f ++
        "\nlevel = ".toList ++ l ++ ['\n'] =
      '[' :: ("neighbor".toList ++ ']' :: '\n' ::
        ("type".toList ++ ' ' :: '=' :: ' ' :: (('"' :: (k ++ ['"'])) ++ '\n' ::
          ("prop_fix_values".toList ++ ' ' :: '=' :: ' ' :: (f ++ '\n' ::
            ("level".toList ++ ' ' :: '=' :: ' ' :: (l ++ '\n' :: []))))))) := by
  simp only [String.reduceToList, List.append_assoc, List.cons_append, List.nil_append]

theorem not_blank_of_isDigit {c : Char} (h : c.isDigit = true) : isBlank c = false := by
  apply isBlank_eq_false_of_bare
  simp [isBareKeyChar, Char.isAlphanum, h]

theorem chars_head_not_blank (x : Binary64) (rest : List Char) :
    ∀ c ∈ (tomlFloat.chars x ++ rest).head?, isBlank c = false := by
  intro c hc
  cases x with
  | nan => cases hc; rfl
  | infinite negative => cases negative <;> cases hc <;> rfl
  | finite negative units representable =>
    obtain ⟨m, hm, _, hchars, _⟩ :=
      FloatText.exists_numeral Config.tomlFloat rfl negative representable
    rw [hchars] at hc
    cases negative with
    | true => cases hc; rfl
    | false =>
      obtain ⟨d, whole, hwhole⟩ := List.exists_cons_of_ne_nil hm.whole.nonempty
      have hd : d.isDigit = true := by
        apply hm.whole.isDigit d
        rw [hwhole]
        exact List.mem_cons_self
      rw [Numeral.chars, hwhole] at hc
      obtain rfl : d = c := Option.some.inj hc
      exact not_blank_of_isDigit hd

theorem head_digits_not_blank {ds : List Char} (hds : DigitRun ds) (rest : List Char) :
    ∀ c ∈ (ds ++ rest).head?, isBlank c = false := by
  intro c hc
  rw [List.head?_append, Option.or_of_isSome (List.isSome_head?.mpr hds.nonempty)] at hc
  exact not_blank_of_isDigit (hds.isDigit c (List.mem_of_mem_head? hc))

/-- The lines of a neighborhood add its table to the root. -/
theorem loop_tomlNeighborhood (s : Settings) {root : Entries}
    (hroot : root.lookup "neighbor" = none) :
    Reader.loop line ⟨root, []⟩ (tomlNeighborhood s) =
      some (root ++ [("neighbor", .table .header (tomlEntries s))], []) := by
  have htext : tomlNeighborhood s = _ := tomlNeighborhood_lines _ _ _
  have hlevel : (s.level.toNat : Int) ≤ Int64.maxValue.toInt := by
    have hlt := s.level.toNat_lt
    have hmax : Int64.maxValue.toInt = 2 ^ 63 - 1 := by decide
    omega
  have hkind : ∀ c ∈ kind.toList, isBasicChar c = true := List.all_eq_true.mp (by decide +kernel)
  have hquoted (rest : List Char) :
      value (nestingLimit - 1) ('"' :: (kind.toList ++ ['"']) ++ rest) =
      some (.text kind, rest) := by
    rw [List.cons_append, List.append_assoc, List.singleton_append,
      value_quoted (by decide +kernel) hkind, String.ofList_toList]
  rw [htext]
  apply loop_header (bareKey_of_all (by decide +kernel) (by decide +kernel))
  · rw [String.ofList_toList, openTable_new hroot]
  rw [String.ofList_toList]
  apply loop_entry (bareKey_of_all (by decide +kernel) (by decide +kernel)) _ (hquoted _)
  · rw [String.ofList_toList, insertBelow_table hroot rfl, List.nil_append]
  · apply loop_entry (bareKey_of_all (by decide +kernel) (by decide +kernel))
      (chars_head_not_blank _ _) (value_chars _ _)
    · rw [String.ofList_toList, insertBelow_table hroot (by simp), List.cons_append,
        List.nil_append]
    · apply loop_entry (bareKey_of_all (by decide +kernel) (by decide +kernel))
        (head_digits_not_blank (digitRun_toDigits _) _) (value_toDigits hlevel _)
      · rw [String.ofList_toList, insertBelow_table hroot (by simp)]
      · exact loop_end
  · rintro c hc
    cases hc
    rfl

theorem ofContent_written (s : Settings) {level : Content} (hlevel : level.word32? = some s.level) :
    Settings.ofContent (.map [(.text "type", .text kind),
      (.text "prop_fix_values", .float s.proportion), (.text "level", level)]) = some s := by
  simp [Settings.ofContent, Content.isKindKey, Settings.ofEntries, Settings.Given.add,
    Settings.Field.ofKey, Content.double?, hlevel, Settings.Given.complete]

theorem word32?_signed (level : UInt32) :
    (Content.signed level.toNat).word32? = some level := by
  have hlt := level.toNat_lt_size
  rw [Content.word32?, if_pos ⟨by omega, by omega⟩, Int.toNat_natCast, UInt32.ofNat_toNat]

theorem ofTomlEntries_written (c : Config) {root : Entries} {seed : Option Item}
    (hroot : root.lookup "random_seed" = seed) (hseed : seed.mapM Item.seed? = some c.seed)
    (hneighbor : root.lookup "neighbor" = some (.table .header (tomlEntries c.settings))) :
    ofTomlEntries root = some c := by
  have hcontent : (Item.table .header (tomlEntries c.settings)).content =
      .map [(.text "type", .text kind), (.text "prop_fix_values", .float c.settings.proportion),
        (.text "level", .signed c.settings.level.toNat)] := by
    simp only [tomlEntries, Item.content, entriesContent]
  rw [ofTomlEntries, hroot, hseed, hneighbor, Option.map_some, hcontent, Option.bind_eq_bind,
    Option.bind_some, ofParts, ofContent_written c.settings (word32?_signed _), Option.bind_eq_bind,
    Option.bind_some]
  rfl

theorem fromToml_of_loop {text : List Char} {root : Entries} {c : Config}
    (hmark : text.head? ≠ some '\ufeff')
    (hloop : Reader.loop line ⟨[], []⟩ text = some (root, []))
    (hroot : ofTomlEntries root = some c) :
    fromToml (String.ofList text) = .ok c := by
  have hdrop : dropMark text = text := by
    cases text with
    | nil => rfl
    | cons x text =>
      rw [dropMark.eq_2]
      rintro tail htail
      rw [htail] at hmark
      exact hmark rfl
  have hparse : parse (String.ofList text) = some root := by
    rw [parse, String.toList_ofList, hdrop, Reader.readAll, lines_eq, hloop]
  rw [fromToml, ofToml?, hparse, Option.bind_eq_bind, Option.bind_some, hroot]

theorem seed?_written {seed : UInt64} :
    (some (Item.integer seed.toNat)).mapM Item.seed? = some (some seed) := by
  rw [Option.mapM_some, Item.seed?, if_pos (Int.natCast_nonneg _), Int.toNat_natCast,
    UInt64.ofNat_toNat]
  rfl

theorem toml_lines (seed neighborhood : List Char) :
    "random_seed = ".toList ++ seed ++ "\n\n".toList ++ neighborhood =
      "random_seed".toList ++ ' ' :: '=' :: ' ' :: (seed ++ '\n' :: '\n' :: neighborhood) := by
  simp only [String.reduceToList, List.append_assoc, List.cons_append, List.nil_append]

theorem fromToml_toToml {c : Config} {text : String} (h : c.toToml? = some text) :
    fromToml text = .ok c := by
  rw [toToml?] at h
  cases hseed : c.seed with
  | none =>
    rw [hseed] at h
    obtain rfl := Option.some.inj h
    apply fromToml_of_loop _ (loop_tomlNeighborhood c.settings rfl)
    · exact ofTomlEntries_written c rfl (by rw [hseed]; rfl) rfl
    · have htext : tomlNeighborhood c.settings = _ := tomlNeighborhood_lines _ _ _
      rw [htext]
      exact fun h => absurd (Option.some.inj h) (by decide)
  | some seed =>
    rw [hseed] at h
    dsimp only at h
    split at h
    case isFalse => cases h
    case isTrue hle =>
      obtain rfl := Option.some.inj h
      rw [toml_lines]
      have hname : BareKey "random_seed".toList :=
        bareKey_of_all (by decide +kernel) (by decide +kernel)
      have hinsert : Entries.insertBelow [] [] (String.ofList "random_seed".toList)
          (.integer seed.toNat) [] = some ([] ++ [("random_seed", .integer seed.toNat)]) := by
        rw [String.ofList_toList]
        exact insertBelow_root rfl
      have hloop : Reader.loop line ⟨[], []⟩ _ = _ :=
        loop_entry hname (head_digits_not_blank (digitRun_toDigits _) _) (value_toDigits hle _)
          hinsert (loop_empty (loop_tomlNeighborhood c.settings (by rfl)))
      apply fromToml_of_loop _ hloop
      · exact ofTomlEntries_written c rfl (by rw [hseed]; exact seed?_written) rfl
      · exact fun h => absurd (Option.some.inj h) (by decide)

/-- A configuration has a TOML text if its seed fits a signed 64-bit integer. -/
theorem toToml_isSome_iff (c : Config) :
    c.toToml?.isSome ↔ ∀ seed ∈ c.seed, seed.toNat ≤ 2 ^ 63 - 1 := by
  have hmax : Int64.maxValue.toInt = (2 ^ 63 - 1 : Nat) := by decide
  rw [toToml?]
  cases c.seed with
  | none => simp
  | some seed =>
    dsimp only
    split
    case isTrue hle => simp; omega
    case isFalse hgt => simp; omega

/-! ## YAML -/

section

open Yaml

/-! ### The words of a text -/

theorem isWordChar_of_isDigit {c : Char} (h : c.isDigit = true) : isWordChar c = true := by
  obtain ⟨hlow, hhigh⟩ := Char.isDigit_iff_toNat.mp h
  have hstart : '!' ≤ c := Nat.le_trans (by decide) hlow
  have hend : c ≤ '~' := Nat.le_trans hhigh (by decide)
  have hcolon : c ≠ ':' := by
    rintro rfl
    cases h
  simp [isWordChar, hstart, hend, hcolon]

theorem isIndicator_of_isDigit {c : Char} (h : c.isDigit = true) :
    Tokens.isIndicator c = false := by
  have hnone : "-?:,[]\x7b\x7d#&*!|>'\"%@`".toList.all (fun x => !x.isDigit) = true := by
    decide +kernel
  rw [Tokens.isIndicator, List.contains_eq_mem, decide_eq_false_iff_not]
  intro hmem
  have hc := List.all_eq_true.mp hnone c hmem
  rw [h] at hc
  cases hc

theorem plainWord_digits {ds : List Char} (hds : DigitRun ds) : PlainWord ds where
  nonempty := hds.nonempty
  isWordChar x hx := isWordChar_of_isDigit (hds.isDigit x hx)
  start x hx := .inl (isIndicator_of_isDigit (hds.isDigit x (List.mem_of_mem_head? hx)))

theorem plainWord_of_all {w : List Char} (hne : w ≠ []) (hw : w.all isWordChar = true)
    (hstart : w.head?.all (fun x => !Tokens.isIndicator x) = true) : PlainWord w where
  nonempty := hne
  isWordChar := List.all_eq_true.mp hw
  start x hx := by
    rw [hx] at hstart
    exact .inl (Bool.not_eq_eq_eq_not.mp hstart)

theorem keyWord_of_all {k : List Char} (hne : k ≠ []) (hk : k.all isWordChar = true)
    (hstart : k.head?.all (fun x => !Tokens.isIndicator x && x != '.') = true)
    (hshort : k.length ≤ 256) : KeyWord k where
  nonempty := hne
  isWordChar := List.all_eq_true.mp hk
  start x hx := by
    rw [hx] at hstart
    simpa using hstart
  short := hshort

theorem plainWord_chars (x : Binary64) : PlainWord (yamlFloat.chars x) := by
  cases x with
  | nan => exact plainWord_of_all (by decide) (by decide) (by decide)
  | infinite negative =>
    cases negative with
    | false => exact plainWord_of_all (by decide) (by decide) (by decide)
    | true =>
      refine ⟨by decide, List.all_eq_true.mp (by decide), fun x hx => .inr ?_⟩
      rw [← Option.some.inj hx]
      exact ⟨rfl, by decide⟩
  | finite negative units representable =>
    obtain ⟨m, hm, _, hchars, _⟩ := FloatText.exists_numeral yamlFloat rfl negative representable
    obtain ⟨c, cs, hcons, hc, htext⟩ := signed_chars_cases hm negative
    have hword : ∀ x ∈ m.chars, isWordChar x = true := by
      intro x hx
      rcases chars_cases hm x hx with hdigit | rfl | rfl | rfl
      · exact isWordChar_of_isDigit hdigit
      all_goals rfl
    rw [hcons] at hword
    rw [hchars, htext]
    cases negative with
    | false =>
      refine ⟨List.cons_ne_nil _ _, hword, fun x hx => .inl ?_⟩
      rw [← Option.some.inj hx]
      exact isIndicator_of_isDigit hc
    | true =>
      refine ⟨List.cons_ne_nil _ _, fun x hx => ?_, fun x hx => .inr ?_⟩
      · rcases List.mem_cons.mp hx with rfl | hx
        · rfl
        · exact hword x hx
      · rw [← Option.some.inj hx]
        exact ⟨rfl, by simp⟩

/-! ### The text as tokens -/

def yamlTokens (seed kind proportion level : List Char) : List Token :=
  [.blockMappingStart, .key, .scalar .plain "random_seed".toList, .value, .scalar .plain seed,
    .key, .scalar .plain "neighbor".toList, .value,
    .blockMappingStart, .key, .scalar .plain "type".toList, .value, .scalar .plain kind,
    .key, .scalar .plain "prop_fix_values".toList, .value, .scalar .plain proportion,
    .key, .scalar .plain "level".toList, .value, .scalar .plain level, .blockEnd, .blockEnd]

def yamlText (seed kind proportion level : List Char) : List Char :=
  "random_seed: ".toList ++ seed ++ "\nneighbor:\n  type: ".toList ++ kind ++
    "\n  prop_fix_values: ".toList ++ proportion ++ "\n  level: ".toList ++ level ++ ['\n']

variable {seed kind proportion level : List Char}

theorem yamlText_lines (seed kind proportion level : List Char) :
    yamlText seed kind proportion level =
      "random_seed".toList ++ ':' :: ' ' :: (seed ++ '\n' :: (List.replicate 0 ' ' ++
        ("neighbor".toList ++ ':' :: '\n' :: (List.replicate 2 ' ' ++
          ("type".toList ++ ':' :: ' ' :: (kind ++ '\n' :: (List.replicate 2 ' ' ++
            ("prop_fix_values".toList ++ ':' :: ' ' :: (proportion ++ '\n' :: (List.replicate 2 ' ' ++
              ("level".toList ++ ':' :: ' ' :: (level ++ '\n' :: (List.replicate 0 ' ' ++
                []))))))))))))) := by
  unfold yamlText
  simp only [String.reduceToList, List.append_assoc, List.cons_append, List.nil_append,
    List.replicate_zero, List.replicate_succ]

theorem yields_yamlText (hseed : PlainWord seed) (hkind : PlainWord kind)
    (hproportion : PlainWord proportion) (hlevel : PlainWord level) :
    Tokens.Yields Tokens.start (Cursor.ofText (yamlText seed kind proportion level))
      (yamlTokens seed kind proportion level) := by
  have hrandomSeed : KeyWord "random_seed".toList :=
    keyWord_of_all (by decide +kernel) (by decide +kernel) (by decide +kernel) (by decide +kernel)
  have hneighbor : KeyWord "neighbor".toList :=
    keyWord_of_all (by decide +kernel) (by decide +kernel) (by decide +kernel) (by decide +kernel)
  have htype : KeyWord "type".toList :=
    keyWord_of_all (by decide +kernel) (by decide +kernel) (by decide +kernel) (by decide +kernel)
  have hfixed : KeyWord "prop_fix_values".toList :=
    keyWord_of_all (by decide +kernel) (by decide +kernel) (by decide +kernel) (by decide +kernel)
  have hlevelKey : KeyWord "level".toList :=
    keyWord_of_all (by decide +kernel) (by decide +kernel) (by decide +kernel) (by decide +kernel)
  rw [yamlText_lines]
  refine Tokens.Yields.of_firstEntry hrandomSeed hseed
    (hneighbor.plainWord.startsToken _) (Nat.le_refl _)
    (Tokens.skipToToken_start (hrandomSeed.plainWord.startsToken _)) (Nat.le_refl _)
    (fun _ h => absurd h (by simp)) fun _ _ => ?_
  refine Tokens.Yields.of_nestedEntry hneighbor htype hkind (hfixed.plainWord.startsToken _)
    (by decide) (Nat.le_refl _) fun _ _ => ?_
  refine Tokens.Yields.of_furtherEntry hfixed hproportion (hlevelKey.plainWord.startsToken _)
    (Nat.le_refl _) fun _ _ => ?_
  refine Tokens.Yields.of_furtherEntry hlevelKey hlevel (fun _ h => absurd h (by simp))
    (Nat.zero_le _) fun _ _ => ?_
  have htokens : yamlTokens seed kind proportion level =
      (#[] ++ Tokens.keyTokens true "random_seed".toList ++ #[Token.scalar .plain seed] ++
        Tokens.keyTokens false "neighbor".toList ++ Tokens.keyTokens true "type".toList ++
        #[Token.scalar .plain kind] ++ Tokens.keyTokens false "prop_fix_values".toList ++
        #[Token.scalar .plain proportion] ++ Tokens.keyTokens false "level".toList ++
        #[Token.scalar .plain level]).toList ++ [.blockEnd, .blockEnd] := by
    simp only [Tokens.keyTokens, Array.toList_append, if_true, Bool.false_eq_true, if_false]
    rfl
  rw [htokens]
  exact Tokens.Yields.of_end rfl (Nat.le_refl _) Nat.zero_lt_two

theorem isAllowed_of_word {c : Char} (h : isWordChar c = true) : isAllowed c = true := by
  have hvisible := Bool.and_eq_true_iff.mp (Bool.and_eq_true_iff.mp h).1
  have hstart : ' ' ≤ c := Nat.le_trans (by decide) (of_decide_eq_true hvisible.1)
  simp [isAllowed, hstart, of_decide_eq_true hvisible.2]

theorem tokens?_yamlText (hseed : PlainWord seed) (hkind : PlainWord kind)
    (hproportion : PlainWord proportion) (hlevel : PlainWord level) :
    tokens? (yamlText seed kind proportion level) =
      some (yamlTokens seed kind proportion level) := by
  have hword {w : List Char} (hw : PlainWord w) : w.all isAllowed = true :=
    List.all_eq_true.mpr fun x hx => isAllowed_of_word (hw.isWordChar x hx)
  have hallowed : (yamlText seed kind proportion level).all isAllowed = true := by
    unfold yamlText
    simp only [List.all_append, hword hseed, hword hkind, hword hproportion, hword hlevel,
      Bool.and_true]
    decide +kernel
  obtain ⟨c, hloop⟩ := yields_yamlText hseed hkind hproportion hlevel
  rw [tokens?, hallowed, if_pos rfl, hloop, Option.map_some]

/-! ### The document of the tokens -/

def wordNode (w : List Char) : Node := .scalar none .plain w

def yamlNeighborhood (kind proportion level : List Char) : Node :=
  .mapping none [(wordNode "type".toList, wordNode kind),
    (wordNode "prop_fix_values".toList, wordNode proportion),
    (wordNode "level".toList, wordNode level)]

def yamlRoot (seed kind proportion level : List Char) : Node :=
  .mapping none [(wordNode "random_seed".toList, wordNode seed),
    (wordNode "neighbor".toList, yamlNeighborhood kind proportion level)]

set_option maxRecDepth 4000 in
theorem document_yamlTokens (seed kind proportion level : List Char) :
    Build.document ⟨yamlTokens seed kind proportion level, Build.commonHandles, [], 0, []⟩ =
      some (some (yamlRoot seed kind proportion level), ⟨[], Build.commonHandles, [], 0, []⟩) := by
  rfl

theorem parse_yamlText (hseed : PlainWord seed) (hkind : PlainWord kind)
    (hproportion : PlainWord proportion) (hlevel : PlainWord level) :
    Document.parse (String.ofList (yamlText seed kind proportion level)) =
      some ⟨some (yamlRoot seed kind proportion level), []⟩ := by
  rw [Document.parse, String.toList_ofList, tokens?_yamlText hseed hkind hproportion hlevel,
    Option.bind_eq_bind, Option.bind_some, document_yamlTokens]
  rfl

/-! ### The configuration of the document -/

section

variable {d : Document} {depth jumps : Nat}

theorem content_wordNode {w : List Char} {c : Content} (h : plainContent w = some c) :
    Reading.content depth (wordNode w) d jumps = some (c, jumps) := by
  rw [wordNode, Reading.content_scalar, scalarContent, if_pos rfl, h, Option.map_some]

theorem rawText_wordNode (w : List Char) :
    Reading.rawText (wordNode w) d jumps = some (String.ofList w, jumps) := rfl

theorem neighborhood_yaml {x : Binary64} {n : Nat}
    (hproportion : plainContent proportion = some (.float x))
    (hlevel : plainContent level = some (.unsigned n)) :
    Reading.neighborhood depth (yamlNeighborhood kind proportion level) d jumps =
      some (.map [(.text "type", .text (String.ofList kind)), (.text "prop_fix_values", .float x),
        (.text "level", .unsigned n)], jumps) := by
  have htype : plainContent "type".toList = some (.text "type") := rfl
  have hfixed : plainContent "prop_fix_values".toList = some (.text "prop_fix_values") := rfl
  have hlevelKey : plainContent "level".toList = some (.text "level") := rfl
  simp [Reading.neighborhood, yamlNeighborhood, isLocal, content_wordNode htype,
    content_wordNode hfixed, content_wordNode hlevelKey, content_wordNode hproportion,
    content_wordNode hlevel, Content.isKindKey, rawText_wordNode, -String.reduceToList]

theorem word32?_unsigned (level : UInt32) :
    (Content.unsigned level.toNat).word32? = some level := by
  rw [Content.word32?, if_pos level.toNat_lt_size, UInt32.ofNat_toNat]

def yamlSeed : Option UInt64 → List Char
  | none => "null".toList
  | some seed => Nat.toDigits 10 seed.toNat

theorem plainWord_yamlSeed (seed : Option UInt64) : PlainWord (yamlSeed seed) := by
  cases seed with
  | none => exact plainWord_of_all (by decide +kernel) (by decide +kernel) (by decide +kernel)
  | some seed => exact plainWord_digits (digitRun_toDigits _)

theorem seed_yamlSeed (seed : Option UInt64) :
    Reading.seed (wordNode (yamlSeed seed)) d jumps = some (seed, jumps) := by
  cases seed with
  | none => rfl
  | some seed =>
    have hwhole := wholeRun_toDigits seed.toNat
    have hstart : StartsNumber (Nat.toDigits 10 seed.toNat) := by
      rw [← List.append_nil (Nat.toDigits 10 seed.toNat)]
      exact startsNumber_digits hwhole.toDigitRun
    have hunsigned : unsigned? (Nat.toDigits 10 seed.toNat) = some seed.toNat := by
      rw [unsigned?_digits hwhole, ofDigits_toDigits]
    have hlt : seed.toNat < UInt64.size := seed.toNat_lt_size
    simp [Reading.seed, wordNode, yamlSeed, not_isNull hstart, hunsigned, hlt]

theorem config_yamlRoot (c : Config) :
    Reading.config (some (yamlRoot (yamlSeed c.seed) Config.kind.toList
      (yamlFloat.chars c.settings.proportion) (Nat.toDigits 10 c.settings.level.toNat))) d jumps =
      some (c, jumps) := by
  have hlevelValue := ofDigits_toDigits c.settings.level.toNat
  have hlevel : plainContent (Nat.toDigits 10 c.settings.level.toNat) =
      some (.unsigned c.settings.level.toNat) := by
    have hlt := c.settings.level.toNat_lt_size
    have hdigits := plainContent_digits (wholeRun_toDigits c.settings.level.toNat)
    rw [hlevelValue] at hdigits
    exact hdigits (Nat.lt_trans hlt (by decide))
  have hneighborhood (jumps : Nat) : Reading.neighborhood (depthLimit - 2)
      (yamlNeighborhood Config.kind.toList (yamlFloat.chars c.settings.proportion)
        (Nat.toDigits 10 c.settings.level.toNat)) d jumps =
      some (.map [(.text "type", .text Config.kind),
        (.text "prop_fix_values", .float c.settings.proportion),
        (.text "level", .unsigned c.settings.level.toNat)], jumps) := by
    rw [neighborhood_yaml (plainContent_chars c.settings.proportion) hlevel, String.ofList_toList]
  have hseed (jumps : Nat) :
      Reading.seed (wordNode (yamlSeed c.seed)) d jumps = some (c.seed, jumps) :=
    seed_yamlSeed c.seed
  have hparts : Config.ofParts c.seed (some (.map [(.text "type", .text Config.kind),
      (.text "prop_fix_values", .float c.settings.proportion),
      (.text "level", .unsigned c.settings.level.toNat)])) = some c := by
    rw [Config.ofParts, ofContent_written c.settings (word32?_unsigned _)]
    rfl
  simp [Reading.config, yamlRoot, Reading.entry, rawText_wordNode, hseed, hneighborhood, hparts,
    -String.reduceToList]

end

theorem fromYaml_toYaml (c : Config) : fromYaml c.toYaml = .ok c := by
  have htext : c.toYaml = String.ofList (yamlText (yamlSeed c.seed) Config.kind.toList
      (yamlFloat.chars c.settings.proportion) (Nat.toDigits 10 c.settings.level.toNat)) := by
    unfold toYaml yamlText
    cases c.seed with
    | none => exact congrArg String.ofList rfl
    | some seed => exact congrArg String.ofList rfl
  have hkind : PlainWord Config.kind.toList :=
    plainWord_of_all (by decide +kernel) (by decide +kernel) (by decide +kernel)
  have hparse := parse_yamlText (plainWord_yamlSeed c.seed) hkind
    (plainWord_chars c.settings.proportion)
    (plainWord_digits (digitRun_toDigits c.settings.level.toNat))
  have hread : ofYaml? c.toYaml = some c := by
    rw [htext, ofYaml?, hparse, Option.bind_eq_bind, Option.bind_some, ofYamlDocument,
      config_yamlRoot]
    rfl
  rw [fromYaml, hread]

end

/-! ## The round trip -/

/-- Every configuration has a YAML text and is read back from it. It has a TOML text exactly if its
seed fits a signed 64-bit integer, and then it is read back from that as well. -/
theorem round_trip (c : Config) :
    fromYaml c.toYaml = .ok c ∧
      (c.toToml?.isSome ↔ ∀ seed ∈ c.seed, seed.toNat ≤ 2 ^ 63 - 1) ∧
      ∀ text ∈ c.toToml?, fromToml text = .ok c :=
  ⟨fromYaml_toYaml c, toToml_isSome_iff c, fun _ h => fromToml_toToml h⟩

/-- The largest seed that has a TOML text, and a zero that keeps its sign. -/
theorem largest_seed_round_trip :
    let c : Config := ⟨some 9223372036854775807, ⟨Binary64.ofRatio true 0 1, 10⟩⟩
    let toml :=
      "random_seed = 9223372036854775807\n\n[neighbor]\ntype = \"random_grouped_by_value\"\n" ++
        "prop_fix_values = -0.0\nlevel = 10\n"
    let yaml := "random_seed: 9223372036854775807\nneighbor:\n  type: random_grouped_by_value\n" ++
      "  prop_fix_values: -0.0\n  level: 10\n"
    c.toYaml = yaml ∧ c.toToml? = some toml ∧ fromYaml yaml = .ok c ∧ fromToml toml = .ok c := by
  intro c toml yaml
  have hyaml : c.toYaml = yaml := by decide +kernel
  have htoml : c.toToml? = some toml := by decide +kernel
  refine ⟨hyaml, htoml, ?_, (round_trip c).2.2 toml htoml⟩
  rw [← hyaml]
  exact (round_trip c).1

end LargeNeighborhood.Config
