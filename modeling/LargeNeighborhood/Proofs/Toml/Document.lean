import LargeNeighborhood.Proofs.Toml.Number

/-!
# TOML lines as they are written

A line with a bare key, an equals sign and a value adds the value to the table opened last; a header
with a bare key opens a table of the root.
-/

namespace LargeNeighborhood.Toml

variable {k v cs rest : List Char} {item : Item}

/-! ## Keys -/

/-- Characters of bare keys, at least one. -/
structure BareKey (k : List Char) : Prop where
  nonempty : k ≠ []
  isBareKeyChar : ∀ c ∈ k, isBareKeyChar c = true

theorem isBlank_eq_false_of_bare {c : Char} (h : isBareKeyChar c = true) : isBlank c = false := by
  rw [Bool.eq_false_iff]
  intro hblank
  rcases Bool.or_eq_true_iff.mp hblank with hspace | htab
  · rw [eq_of_beq hspace] at h
    cases h
  · rw [eq_of_beq htab] at h
    cases h

theorem skipBlanks_of_head (h : ∀ c ∈ cs.head?, isBlank c = false) :
    skipBlanks cs = some ((), cs) :=
  Reader.skipWhile_append (fun c (hc : c ∈ ([] : List Char)) => absurd hc List.not_mem_nil) h

theorem keyPart_bare (hk : BareKey k) (hrest : ∀ c ∈ rest.head?, isBareKeyChar c = false) :
    keyPart (k ++ rest) = some (String.ofList k, rest) := by
  obtain ⟨c, k, rfl⟩ := List.exists_cons_of_ne_nil hk.nonempty
  have hc := hk.isBareKeyChar c List.mem_cons_self
  have hmore := Reader.takeWhile_append (fun x hx => hk.isBareKeyChar x (List.mem_cons_of_mem c hx))
    hrest
  rw [List.cons_append, keyPart, bind_of_eq_some (Reader.peek_apply _)]
  generalize hfirst : (c :: (k ++ rest)).head? = first
  split
  case h_1 => cases hfirst; cases hc
  case h_2 => cases hfirst; cases hc
  case h_3 =>
    rw [bind_of_eq_some (Reader.satisfy_cons hc _), bind_of_eq_some hmore, pure_apply]

theorem key_bare (hk : BareKey k) (hrest : ∀ c ∈ rest.head?, isBareKeyChar c = false)
    (hpoint : (rest.dropWhile isBlank).head? ≠ some '.') :
    key (k ++ rest) = some (([], String.ofList k), rest.dropWhile isBlank) := by
  have hstart : skipBlanks (k ++ rest) = some ((), k ++ rest) := by
    apply skipBlanks_of_head
    intro c hc
    rw [List.head?_append, Option.or_of_isSome (List.isSome_head?.mpr hk.nonempty)] at hc
    exact isBlank_eq_false_of_bare (hk.isBareKeyChar c (List.mem_of_mem_head? hc))
  have hend : skipBlanks rest = some ((), rest.dropWhile isBlank) := rfl
  have hnone : Reader.startsWith ['.'] (rest.dropWhile isBlank) =
      some (false, rest.dropWhile isBlank) := by
    generalize rest.dropWhile isBlank = tail at hpoint
    cases tail with
    | nil => rfl
    | cons c tail =>
      have hc : ('.' == c) = false := by
        rw [beq_eq_false_iff_ne]
        rintro rfl
        exact hpoint rfl
      rw [Reader.startsWith_apply, List.isPrefixOf_cons_cons, hc, Bool.false_and]
  rw [key, bind_of_eq_some (Reader.loop_of_inr (a := ([], String.ofList k)) _)]
  · rfl
  · rw [bind_of_eq_some hstart, bind_of_eq_some (keyPart_bare hk hrest), bind_of_eq_some hend,
      bind_of_eq_some hnone, if_neg Bool.false_ne_true]
    rfl

/-! ## Lines -/

def line (progress : Progress) : Reader (Progress ⊕ Entries) := do
  skipBlanks
  match ← Reader.peek with
  | none => return .inr progress.root
  | some '#' | some '\n' | some '\r' =>
    lineEnd
    return .inl progress
  | some '[' => return .inl (← header progress)
  | some _ => return .inl (← entryLine progress)

theorem lines_eq : lines = Reader.loop line ⟨[], []⟩ := rfl

theorem lineEnd_newline (rest : List Char) : lineEnd ('\n' :: rest) = some ((), rest) := rfl

variable {progress : Progress} {root : Entries} {r : Entries × List Char}

theorem line_bare (hk : BareKey k) (rest : List Char) :
    line progress (k ++ rest) = (do return .inl (← entryLine progress) : Reader _) (k ++ rest) := by
  obtain ⟨c, k, rfl⟩ := List.exists_cons_of_ne_nil hk.nonempty
  have hc := hk.isBareKeyChar c List.mem_cons_self
  have hstart : skipBlanks (c :: (k ++ rest)) = some ((), c :: (k ++ rest)) := by
    apply skipBlanks_of_head
    intro x hx
    rw [← Option.some.inj hx]
    exact isBlank_eq_false_of_bare hc
  rw [List.cons_append, line, bind_of_eq_some hstart, bind_of_eq_some (Reader.peek_apply _)]
  generalize hfirst : (c :: (k ++ rest)).head? = first
  split
  case h_1 => cases hfirst
  case h_6 => rfl
  all_goals cases hfirst; cases hc

theorem entryLine_bare (hk : BareKey k)
    (hblank : ∀ c ∈ (v ++ '\n' :: rest).head?, isBlank c = false)
    (hvalue : value (nestingLimit - 1) (v ++ '\n' :: rest) = some (item, '\n' :: rest))
    (hinsert : progress.root.insertBelow progress.opened [] (String.ofList k) item = some root) :
    entryLine progress (k ++ ' ' :: '=' :: ' ' :: (v ++ '\n' :: rest)) =
      some ({ progress with root := root }, rest) := by
  have hkey : key (k ++ ' ' :: '=' :: ' ' :: (v ++ '\n' :: rest)) =
      some (([], String.ofList k), '=' :: ' ' :: (v ++ '\n' :: rest)) :=
    key_bare hk (by rintro c hc; cases hc; rfl) fun h => absurd (Option.some.inj h) (by decide)
  have hspace : skipBlanks (' ' :: (v ++ '\n' :: rest)) = some ((), v ++ '\n' :: rest) :=
    Reader.skipWhile_append
      (show ∀ c ∈ [' '], isBlank c = true from List.forall_mem_singleton.mpr rfl) hblank
  have hend : skipBlanks ('\n' :: rest) = some ((), '\n' :: rest) := rfl
  have hkeyValue :
      keyValue (value (nestingLimit - 1)) (k ++ ' ' :: '=' :: ' ' :: (v ++ '\n' :: rest)) =
      some (([], String.ofList k, item), '\n' :: rest) := by
    rw [keyValue, bind_of_eq_some hkey]
    show (Reader.char '=' >>= _) _ = _
    rw [bind_of_eq_some (Reader.char_cons _ _), bind_of_eq_some hspace, bind_of_eq_some hvalue,
      bind_of_eq_some hend, pure_apply]
  rw [entryLine, bind_of_eq_some hkeyValue]
  show (lineEnd >>= _) _ = _
  rw [bind_of_eq_some (lineEnd_newline rest), hinsert]
  rfl

/-- A line with a bare key and a value, and the lines after it. -/
theorem loop_entry (hk : BareKey k)
    (hblank : ∀ c ∈ (v ++ '\n' :: rest).head?, isBlank c = false)
    (hvalue : value (nestingLimit - 1) (v ++ '\n' :: rest) = some (item, '\n' :: rest))
    (hinsert : progress.root.insertBelow progress.opened [] (String.ofList k) item = some root)
    (hloop : Reader.loop line { progress with root := root } rest = some r) :
    Reader.loop line progress (k ++ ' ' :: '=' :: ' ' :: (v ++ '\n' :: rest)) = some r := by
  refine Reader.loop_of_inl ?_ ?_ hloop
  · rw [line_bare hk, bind_of_eq_some (entryLine_bare hk hblank hvalue hinsert), pure_apply]
  · simp only [List.length_append, List.length_cons]
    omega

theorem loop_header (hk : BareKey k)
    (hopen : progress.root.openTable [] (String.ofList k) = some root)
    (hloop : Reader.loop line ⟨root, [String.ofList k]⟩ rest = some r) :
    Reader.loop line progress ('[' :: (k ++ ']' :: '\n' :: rest)) = some r := by
  have hkey : key (k ++ ']' :: '\n' :: rest) = some (([], String.ofList k), ']' :: '\n' :: rest) :=
    key_bare hk (by rintro c hc; cases hc; rfl) fun h => absurd (Option.some.inj h) (by decide)
  have hsingle : Reader.startsWith ['['] (k ++ ']' :: '\n' :: rest) =
      some (false, k ++ ']' :: '\n' :: rest) := by
    obtain ⟨c, k, rfl⟩ := List.exists_cons_of_ne_nil hk.nonempty
    have hc : ('[' == c) = false := by
      rw [beq_eq_false_iff_ne]
      rintro rfl
      exact absurd (hk.isBareKeyChar _ List.mem_cons_self) (by decide)
    rw [Reader.startsWith_apply, List.cons_append, List.isPrefixOf_cons_cons, hc, Bool.false_and]
  have hheader : header progress ('[' :: (k ++ ']' :: '\n' :: rest)) =
      some (⟨root, [String.ofList k]⟩, rest) := by
    rw [header, bind_of_eq_some (Reader.char_cons _ _), bind_of_eq_some hsingle]
    rw [if_neg Bool.false_ne_true]
    show (key >>= _) _ = _
    rw [bind_of_eq_some hkey]
    show (Reader.char ']' >>= _) _ = _
    rw [bind_of_eq_some (Reader.char_cons _ _)]
    show (lineEnd >>= _) _ = _
    rw [bind_of_eq_some (lineEnd_newline rest), hopen]
    rfl
  refine Reader.loop_of_inl ?_ ?_ hloop
  · have hstart (cs : List Char) : skipBlanks ('[' :: cs) = some ((), '[' :: cs) := rfl
    rw [line, bind_of_eq_some (hstart _), bind_of_eq_some (Reader.peek_apply _)]
    show (header progress >>= _) _ = _
    rw [bind_of_eq_some hheader, pure_apply]
  · simp only [List.length_append, List.length_cons]
    omega

theorem loop_empty (hloop : Reader.loop line progress rest = some r) :
    Reader.loop line progress ('\n' :: rest) = some r :=
  Reader.loop_of_inl (by rfl) (Nat.lt_succ_self _) hloop

theorem loop_end : Reader.loop line progress [] = some (progress.root, []) :=
  Reader.loop_of_inr rfl

/-! ## Adding to tables -/

section

variable {name : String} {entries : Entries}

theorem lookup_append_singleton (hname : entries.lookup name = none) (item : Item) :
    (entries ++ [(name, item)]).lookup name = some item := by
  rw [List.lookup_append, hname, Option.none_or, List.lookup_cons_self]

theorem replace_append_singleton (hname : entries.lookup name = none) (item item' : Item) :
    Entries.replace (entries ++ [(name, item)]) name item' = entries ++ [(name, item')] := by
  have hothers : entries.map (fun entry => if entry.1 = name then (name, item') else entry) =
      entries := by
    refine (List.map_congr_left fun entry hentry => if_neg ?_).trans (List.map_id entries)
    rintro rfl
    exact absurd (List.lookup_eq_none_iff.mp hname entry hentry) (by simp)
  rw [Entries.replace, List.map_append, hothers, List.map_singleton, if_pos rfl]

theorem openTable_new (hname : root.lookup name = none) :
    root.openTable [] name = some (root ++ [(name, .table .header [])]) := by
  rw [Entries.openTable, Entries.update, hname]

theorem insertBelow_root (hname : root.lookup name = none) :
    root.insertBelow [] [] name item = some (root ++ [(name, item)]) := by
  rw [Entries.insertBelow, Entries.update, Entries.insert, Entries.update, hname]
  rfl

/-- A line adds to the table opened last. -/
theorem insertBelow_table {opened : String} (hopened : root.lookup opened = none)
    (hname : entries.lookup name = none) (item : Item) :
    Entries.insertBelow [opened] [] name item (root ++ [(opened, .table .header entries)]) =
      some (root ++ [(opened, .table .header (entries ++ [(name, item)]))]) := by
  have hinsert : Entries.insert [] name item .header entries =
      some (entries ++ [(name, item)]) := by
    rw [Entries.insert, Entries.update, hname]
    rfl
  simp [Entries.insertBelow, Entries.update, lookup_append_singleton hopened, hinsert,
    replace_append_singleton hopened]

end

/-! ## Strings -/

theorem basicBody_append (hcs : ∀ c ∈ cs, isBasicChar c = true) (rest : List Char) :
    basicBody (cs ++ '"' :: rest) = some (String.ofList cs, rest) := by
  apply Reader.loop_append hcs
  · intro taken tail c hc
    rw [bind_of_eq_some (Reader.next_cons _ _)]
    split
    case h_1 => cases hc
    case h_2 => cases hc
    case h_3 => rw [if_pos hc, pure_apply]
  · rw [bind_of_eq_some (Reader.next_cons _ _)]
    simp

/-- A quoted text that needs no escapes. -/
theorem value_quoted {depth : Nat} (hne : cs ≠ []) (hcs : ∀ c ∈ cs, isBasicChar c = true)
    (rest : List Char) :
    value depth ('"' :: (cs ++ '"' :: rest)) = some (.text (String.ofList cs), rest) := by
  have hsingle : Reader.startsWith ['"', '"', '"'] ('"' :: (cs ++ '"' :: rest)) =
      some (false, '"' :: (cs ++ '"' :: rest)) := by
    obtain ⟨c, cs, rfl⟩ := List.exists_cons_of_ne_nil hne
    have hc : ('"' == c) = false := by
      rw [beq_eq_false_iff_ne]
      rintro rfl
      exact absurd (hcs _ List.mem_cons_self) (by decide)
    rw [Reader.startsWith_apply, List.cons_append, List.isPrefixOf_cons_cons,
      List.isPrefixOf_cons_cons, hc, Bool.false_and, Bool.and_false]
  have hother : Reader.startsWith ['\'', '\'', '\''] ('"' :: (cs ++ '"' :: rest)) =
      some (false, '"' :: (cs ++ '"' :: rest)) := rfl
  have hquoted : quoted ('"' :: (cs ++ '"' :: rest)) = some (String.ofList cs, rest) := by
    rw [quoted, bind_of_eq_some (Reader.next_cons _ _)]
    exact basicBody_append hcs rest
  have hstring : string ('"' :: (cs ++ '"' :: rest)) = some (String.ofList cs, rest) := by
    rw [string, bind_of_eq_some hsingle, if_neg Bool.false_ne_true, bind_of_eq_some hother,
      if_neg Bool.false_ne_true, hquoted]
  rw [value_of_not_bracket ⟨by simp, by simp⟩, scalar, bind_of_eq_some (Reader.peek_apply _)]
  show (string >>= _) _ = _
  rw [bind_of_eq_some hstring, pure_apply]

end LargeNeighborhood.Toml
