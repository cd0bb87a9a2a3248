import Mathlib.Data.List.GetD
import Std.Data.TreeMap
import LightSearch.Lib.Trim

/-!
# The configuration file

A line of the file is a key, white space and a value. `deleteSpace` trims a text with two loops over
its iterators, and `splitKeyValue` cuts the key off a line by its length, which is right for a line
that was trimmed before. The constructor keeps the first value of each key that it knows.

`configMap_exact` says which map that is in terms of the lines: the value of a key is the trimmed rest
of the first line whose first word is the key. So a file that was printed from a map, its lines in any
order, with white space around keys and values and with other lines between, gives the map back
(`configuration_parses`). The stop words that the constructor reads after the map are left out: they do
not change it.
-/

set_option autoImplicit false

namespace LightSearch

open Cxx

/-! ## The source -/

/-- Where the first loop of `deleteSpace` stops. -/
def frontFrom : Str → Nat
  | [] => 0
  | ch :: words => if isspace ch then frontFrom words + 1 else 0

/-- Where the second loop stops, which goes back from a place: behind the last character that is no
white space. -/
def backFrom (words : Str) : Nat → Nat
  | 0 => 0
  | it + 1 => if isspace (words.getD it 0) then backFrom words it else it + 1

def deleteSpace (words : Str) : Str :=
  let words := words.drop (frontFrom words)
  words.take (backFrom words words.length)

/-- `splitKeyValue`: the key is what `>>` reads, and as many characters are taken off the line. -/
def splitKeyValue (line : Str) : Str × Str :=
  let key := match extract line with
    | none => []
    | some (word, _) => word
  (key, deleteSpace (line.drop key.length))

/-- The keys of a configuration. -/
def confKeys : List Str :=
  [lit "STOP_WORDS_LIST_CN_PATH", lit "STOP_WORDS_LIST_ENG_PATH", lit "CN_ART_PATH",
    lit "EN_ART_PATH", lit "CN_DICT_OUTPUT_PATH", lit "EN_DICT_OUTPUT_PATH",
    lit "CN_INDEX_OUTPUT_PATH", lit "EN_INDEX_OUTPUT_PATH", lit "DICT_PATH", lit "HMM_PATH",
    lit "USER_DICT_PATH", lit "IDF_PATH", lit "LOG_PATH", lit "STOP_WORD_PATH", lit "IP", lit "PORT",
    lit "TASK_QUEUE_SIZE", lit "THREAD_POOL_SIZE", lit "WEB_PAGE_PATH", lit "WEB_STOP_WORD_PATH",
    lit "WEB_INVERT_LIB", lit "WEB_OFFSET_LIB", lit "WEB_PAGE_LIB", lit "LRU_BAK_PATH",
    lit "MYSQL_PASSWARD", lit "MYSQL_DATABASE_NAME"]

/-- `map<string, string>`. -/
abbrev ConfigMap := Std.TreeMap Str Str

/-- The body of the loop over the lines. -/
def Configuration.readLine (configMap : ConfigMap) (line : Str) : ConfigMap :=
  let line := deleteSpace line
  if line.length = 0 then configMap
  else
    let (confKey, confValue) := splitKeyValue line
    if confKey ∈ confKeys then
      if confKey ∈ configMap then configMap else configMap.insert confKey confValue
    else configMap

/-- `_configMap` after the constructor; a file that does not open leaves it empty. -/
def Configuration.configMap : Option Str → ConfigMap
  | none => ∅
  | some contents => (getlines contents).foldl readLine ∅

/-! ## The two loops -/

theorem drop_frontFrom (words : Str) : words.drop (frontFrom words) = words.dropWhile isspace := by
  induction words with
  | nil => rfl
  | cons ch words ih =>
    unfold frontFrom
    split
    · next hch => rw [List.drop_succ_cons, ih, List.dropWhile_cons_of_pos hch]
    · next hch => rw [List.drop_zero, List.dropWhile_cons_of_neg hch]

theorem take_backFrom (words : Str) {it : Nat} (h : it ≤ words.length) :
    words.take (backFrom words it) = (words.take it).rdropWhile isspace := by
  induction it with
  | zero => rw [List.take_zero, List.rdropWhile_nil]; rfl
  | succ it ih =>
    have hget : words.getD it 0 = words[it] := List.getD_eq_getElem _ _ h
    unfold backFrom
    rw [hget, List.take_succ_eq_append_getElem h, List.rdropWhile_concat]
    split
    · exact ih (Nat.le_of_succ_le h)
    · exact List.take_succ_eq_append_getElem h

/-- **`deleteSpace` trims.** -/
theorem deleteSpace_eq (words : Str) : deleteSpace words = trim words := by
  unfold deleteSpace trim
  dsimp only
  rw [drop_frontFrom, take_backFrom _ (Nat.le_refl _), List.take_length]

/-! ## The lines -/

/-- The first word of a line and the rest of the line, trimmed. -/
def entryOf (line : Str) : Option (Str × Str) := (extract line).map fun e => (e.1, trim e.2)

/-- The value that some lines give to a key: that of the first line whose first word is the key. -/
def firstValue (lines : List Str) (key : Str) : Option Str := (lines.filterMap entryOf).lookup key

/-- What is kept for the entry of a line. -/
def keepFirst (configMap : ConfigMap) (entry : Str × Str) : ConfigMap :=
  if entry.1 ∈ confKeys ∧ entry.1 ∉ configMap then configMap.insert entry.1 entry.2 else configMap

/-- **What a line does**: it is its entry that is looked at, if it has one. -/
theorem readLine_eq (configMap : ConfigMap) (line : Str) :
    Configuration.readLine configMap line =
      match entryOf line with
      | none => configMap
      | some entry => keepFirst configMap entry := by
  unfold Configuration.readLine entryOf
  dsimp only
  rw [deleteSpace_eq]
  cases hline : extract line with
  | none =>
    rw [trim_eq_nil_iff.mpr (extract_eq_none.mp hline)]
    rfl
  | some e =>
    obtain ⟨word, rest⟩ := e
    obtain ⟨htrim, hextract⟩ := extract_trim hline
    have hword : Word word := by
      obtain ⟨front, -, -, hword, -⟩ := extract_eq_some.mp hline
      exact hword
    have hne : ¬ (trim line).length = 0 := by
      rw [htrim, List.length_append]
      have hpos := List.length_pos_of_ne_nil hword.1
      omega
    have hsplit : splitKeyValue (trim line) = (word, trim rest) := by
      unfold splitKeyValue
      rw [hextract, htrim]
      dsimp only
      rw [List.drop_left, deleteSpace_eq, trim_rdropWhile]
    rw [if_neg hne, hsplit, Option.map_some]
    dsimp only
    unfold keepFirst
    by_cases hkey : word ∈ confKeys
    · by_cases hmem : word ∈ configMap
      · simp [hkey, hmem]
      · simp [hkey, hmem]
    · simp [hkey]

/-- The lines do what their entries do. -/
theorem foldl_readLine (lines : List Str) (configMap : ConfigMap) :
    lines.foldl Configuration.readLine configMap = (lines.filterMap entryOf).foldl keepFirst configMap := by
  induction lines generalizing configMap with
  | nil => rfl
  | cons line lines ih =>
    rw [List.foldl_cons, ih, readLine_eq]
    cases hentry : entryOf line with
    | none => rw [List.filterMap_cons_none hentry]
    | some entry => rw [List.filterMap_cons_some hentry, List.foldl_cons]

theorem getElem?_keepFirst (configMap : ConfigMap) (entry : Str × Str) (key : Str) :
    (keepFirst configMap entry)[key]? =
      if entry.1 = key ∧ key ∈ confKeys ∧ configMap[key]? = none then some entry.2
      else configMap[key]? := by
  have hnone : configMap[entry.1]? = none ↔ entry.1 ∉ configMap := by
    rw [Std.TreeMap.mem_iff_isSome_getElem?, Option.not_isSome_iff_eq_none]
  unfold keepFirst
  split
  · next h =>
    rw [Std.TreeMap.getElem?_insert]
    by_cases hkey : entry.1 = key
    · subst hkey
      simp [h.1, hnone.mpr h.2]
    · simp [hkey]
  · next h =>
    by_cases hkey : entry.1 = key
    · subst hkey
      rw [← hnone, not_and] at h
      rw [if_neg fun hall => h hall.2.1 hall.2.2]
    · rw [if_neg fun hall => hkey hall.1]

theorem lookup_cons_of_ne {key : Str} {entry : Str × Str} (h : entry.1 ≠ key)
    (entries : List (Str × Str)) : (entry :: entries).lookup key = entries.lookup key := by
  obtain ⟨key', value⟩ := entry
  have hbeq : (key == key') = false := beq_eq_false_iff_ne.mpr (Ne.symm h)
  rw [List.lookup_cons, hbeq]

/-- A key keeps what it has, and else gets the first value for it. -/
theorem getElem?_foldl_keepFirst (entries : List (Str × Str)) (configMap : ConfigMap) {key : Str}
    (hkey : key ∈ confKeys) :
    (entries.foldl keepFirst configMap)[key]? = configMap[key]?.or (entries.lookup key) := by
  induction entries generalizing configMap with
  | nil => simp
  | cons entry entries ih =>
    rw [List.foldl_cons, ih, getElem?_keepFirst]
    cases hvalue : configMap[key]? with
    | some value => simp
    | none =>
      by_cases heq : entry.1 = key
      · subst heq
        have hlookup : (entry :: entries).lookup entry.1 = some entry.2 := List.lookup_cons_self
        rw [if_pos ⟨rfl, hkey, rfl⟩, hlookup]
        rfl
      · rw [lookup_cons_of_ne heq, if_neg fun hall => heq hall.1]

/-- A key that is not one of a configuration gets no value. -/
theorem getElem?_foldl_unknown (entries : List (Str × Str)) (configMap : ConfigMap) {key : Str}
    (hkey : key ∉ confKeys) : (entries.foldl keepFirst configMap)[key]? = configMap[key]? := by
  induction entries generalizing configMap with
  | nil => rfl
  | cons entry entries ih =>
    rw [List.foldl_cons, ih, getElem?_keepFirst, if_neg fun h => hkey h.2.1]

/-- **What the map has**: each key of a configuration has its first value, and no other key has one. -/
theorem configMap_exact (contents key : Str) :
    (Configuration.configMap (some contents))[key]? =
      if key ∈ confKeys then firstValue (getlines contents) key else none := by
  unfold Configuration.configMap firstValue
  dsimp only
  rw [foldl_readLine]
  split
  · next hkey =>
    rw [getElem?_foldl_keepFirst _ _ hkey]
    simp
  · next hkey =>
    rw [getElem?_foldl_unknown _ _ hkey]
    simp

/-! ## Printing -/

/-- White space inside a line. -/
def Spaces (s : Str) : Prop := Blank s ∧ newline ∉ s

instance (s : Str) : Decidable (Spaces s) := inferInstanceAs (Decidable (_ ∧ _))

/-- A value on one line, without white space at its ends. -/
def LineValue (value : Str) : Prop := newline ∉ value ∧ trim value = value

instance (value : Str) : Decidable (LineValue value) := inferInstanceAs (Decidable (_ ∧ _))

/-- Lines that print some entries, one after the other: each with white space around its key and its
value, and blank lines and lines with other first words between them. -/
inductive Prints : List (Str × Str) → List Str → Prop
  | nil : Prints [] []
  | entry {entries : List (Str × Str)} {lines : List Str} {key value front gap back : Str}
    (hfront : Spaces front) (hgap : Spaces gap) (hback : Spaces back)
    (hapart : gap = [] → value = []) (h : Prints entries lines) :
    Prints ((key, value) :: entries) ((front ++ (key ++ (gap ++ (value ++ back)))) :: lines)
  | blank {entries : List (Str × Str)} {lines : List Str} {line : Str} (hline : Spaces line)
    (h : Prints entries lines) : Prints entries (line :: lines)
  | unknown {entries : List (Str × Str)} {lines : List Str} {line : Str} (hclean : newline ∉ line)
    (hline : ∀ word rest, extract line = some (word, rest) → word ∉ confKeys)
    (h : Prints entries lines) : Prints entries (line :: lines)

/-- The text of some lines. -/
def unlines (lines : List Str) : Str := lines.flatMap fun line => line ++ [newline]

theorem confKeys_words : ∀ key ∈ confKeys, Word key ∧ newline ∉ key := by
  decide

/-- A printed entry is the entry of its line. -/
theorem entryOf_printed {key value front gap back : Str} (hkey : Word key) (hvalue : LineValue value)
    (hfront : Spaces front) (hgap : Spaces gap) (hback : Spaces back)
    (hapart : gap = [] → value = []) :
    entryOf (front ++ (key ++ (gap ++ (value ++ back)))) = some (key, value) := by
  have hrest : Apart (gap ++ (value ++ back)) := by
    cases gap with
    | nil =>
      rw [hapart rfl]
      exact hback.1.apart
    | cons ch gap => exact hgap.1.apart
  have hextract : extract (front ++ (key ++ (gap ++ (value ++ back)))) =
      some (key, gap ++ (value ++ back)) :=
    extract_eq_some.mpr ⟨front, rfl, hfront.1, hkey, hrest⟩
  unfold entryOf
  rw [hextract, Option.map_some, trim_surround hgap.1 hback.1, hvalue.2]

/-- Printed lines have the printed entries, and entries for other keys. -/
theorem Prints.lookup {entries : List (Str × Str)} {lines : List Str} (h : Prints entries lines)
    (hentries : ∀ entry ∈ entries, entry.1 ∈ confKeys ∧ LineValue entry.2) {key : Str}
    (hkey : key ∈ confKeys) : firstValue lines key = entries.lookup key := by
  unfold firstValue
  induction h with
  | nil => rfl
  | @entry entries lines key' value front gap back hfront hgap hback hapart h ih =>
    obtain ⟨hfirst, hrest⟩ := List.forall_mem_cons.mp hentries
    rw [List.filterMap_cons_some (entryOf_printed (confKeys_words _ hfirst.1).1 hfirst.2 hfront hgap
      hback hapart)]
    by_cases heq : key' = key
    · subst heq
      rw [List.lookup_cons_self, List.lookup_cons_self]
    · rw [lookup_cons_of_ne heq, lookup_cons_of_ne heq]
      exact ih hrest
  | @blank entries lines line hline h ih =>
    have hnone : entryOf line = none := by
      unfold entryOf
      rw [extract_eq_none.mpr hline.1]
      rfl
    rw [List.filterMap_cons_none hnone]
    exact ih hentries
  | @unknown entries lines line hclean hline h ih =>
    cases hextract : extract line with
    | none =>
      have hnone : entryOf line = none := by
        unfold entryOf
        rw [hextract]
        rfl
      rw [List.filterMap_cons_none hnone]
      exact ih hentries
    | some e =>
      have hsome : entryOf line = some (e.1, trim e.2) := by
        unfold entryOf
        rw [hextract]
        rfl
      have hne : (e.1, trim e.2).1 ≠ key := fun heq => hline e.1 e.2 hextract (heq ▸ hkey)
      rw [List.filterMap_cons_some hsome, lookup_cons_of_ne hne]
      exact ih hentries

/-- Printed lines have no newline inside. -/
theorem Prints.clean {entries : List (Str × Str)} {lines : List Str} (h : Prints entries lines)
    (hentries : ∀ entry ∈ entries, entry.1 ∈ confKeys ∧ LineValue entry.2) :
    ∀ line ∈ lines, newline ∉ line := by
  induction h with
  | nil => exact fun _ hmem => absurd hmem List.not_mem_nil
  | @entry entries lines key' value front gap back hfront hgap hback hapart h ih =>
    obtain ⟨hfirst, hrest⟩ := List.forall_mem_cons.mp hentries
    refine List.forall_mem_cons.mpr ⟨?_, ih hrest⟩
    simp only [List.mem_append, not_or]
    exact ⟨hfront.2, (confKeys_words _ hfirst.1).2, hgap.2, hfirst.2.1, hback.2⟩
  | blank hline h ih => exact List.forall_mem_cons.mpr ⟨hline.2, ih hentries⟩
  | unknown hclean hline h ih => exact List.forall_mem_cons.mpr ⟨hclean, ih hentries⟩

theorem getlines_unlines {lines : List Str} (h : ∀ line ∈ lines, newline ∉ line) :
    getlines (unlines lines) = lines := by
  induction lines with
  | nil => rfl
  | cons line lines ih =>
    obtain ⟨hline, hlines⟩ := List.forall_mem_cons.mp h
    have hsplit : unlines (line :: lines) = line ++ newline :: unlines lines := by
      simp [unlines]
    rw [hsplit, getlines_append_newline hline, ih hlines]

/-- A newline at the end adds nothing but an empty line. -/
theorem getlines_concat_newline (text : Str) :
    getlines (text ++ [newline]) = getlines text ∨
      getlines (text ++ [newline]) = getlines text ++ [[]] := by
  induction text with
  | nil => exact .inr rfl
  | cons ch text ih =>
    rw [List.cons_append]
    unfold getlines
    by_cases hch : ch = newline
    · rw [if_pos hch, if_pos hch]
      rcases ih with h | h
      · exact .inl (by rw [h])
      · exact .inr (by rw [h, List.cons_append])
    · rw [if_neg hch, if_neg hch]
      rcases ih with h | h
      · exact .inl (by rw [h])
      · rw [h]
        cases getlines text with
        | nil => exact .inl rfl
        | cons line rest => exact .inr rfl

/-- The last newline of a file does not matter. -/
theorem firstValue_concat_newline (text key : Str) :
    firstValue (getlines (text ++ [newline])) key = firstValue (getlines text) key := by
  rcases getlines_concat_newline text with h | h
  · rw [h]
  · rw [h]
    unfold firstValue
    rw [List.filterMap_append]
    have hnone : [([] : Str)].filterMap entryOf = [] := rfl
    rw [hnone, List.append_nil]

/-- A map has what its entries have, in any order. -/
theorem lookup_of_perm {m : ConfigMap} {entries : List (Str × Str)} (h : entries.Perm m.toList)
    (key : Str) : entries.lookup key = m[key]? := by
  have hdistinct : (entries.map Prod.fst).Nodup := by
    have hkeys : (m.toList.map Prod.fst).Nodup := by
      rw [Std.TreeMap.map_fst_toList_eq_keys]
      exact Std.TreeMap.nodup_keys
    exact (h.map Prod.fst).nodup_iff.mpr hkeys
  have hmem : ∀ value, entries.lookup key = some value ↔ (key, value) ∈ entries := by
    clear h
    intro value
    induction entries with
    | nil => simp
    | cons entry entries ih =>
      obtain ⟨hentry, hrest⟩ := List.nodup_cons.mp hdistinct
      rw [List.mem_cons, ← ih hrest]
      by_cases heq : key = entry.1
      · subst heq
        have hnot : entries.lookup entry.1 = none := by
          apply List.lookup_eq_none_iff.mpr
          intro p hp
          exact bne_iff_ne.mpr fun heq => hentry (List.mem_map.mpr ⟨p, hp, heq.symm⟩)
        rw [List.lookup_cons_self, hnot]
        simp [Prod.ext_iff, eq_comm]
      · rw [lookup_cons_of_ne (Ne.symm heq)]
        simp [Prod.ext_iff, heq]
  apply Option.ext
  intro value
  rw [hmem, h.mem_iff, Std.TreeMap.mem_toList_iff_getElem?_eq_some]

/-- **The configuration.** The map has for each key that is known the trimmed rest of the first line
whose first word is the key, and nothing else. So the map that a file was printed from is read back,
whatever the order and the white space of its lines, and whatever lines are between them. -/
theorem configuration_parses :
    (∀ contents key : Str, (Configuration.configMap (some contents))[key]? =
      if key ∈ confKeys then firstValue (getlines contents) key else none) ∧
    ∀ (m : ConfigMap) (entries : List (Str × Str)) (lines : List Str) (text : Str),
      (∀ entry ∈ m.toList, entry.1 ∈ confKeys ∧ LineValue entry.2) → entries.Perm m.toList →
      Prints entries lines → text = unlines lines ∨ text ++ [newline] = unlines lines →
      ∀ key : Str, (Configuration.configMap (some text))[key]? = m[key]? := by
  refine ⟨configMap_exact, fun m entries lines text hm hperm hprints htext key => ?_⟩
  have hentries : ∀ entry ∈ entries, entry.1 ∈ confKeys ∧ LineValue entry.2 :=
    fun entry hentry => hm entry (hperm.mem_iff.mp hentry)
  have hlines : firstValue (getlines text) key = firstValue lines key := by
    have hunlines := getlines_unlines (hprints.clean hentries)
    rcases htext with rfl | htext
    · rw [hunlines]
    · rw [← firstValue_concat_newline, htext, hunlines]
  rw [configMap_exact, hlines]
  split
  · next hkey => rw [hprints.lookup hentries hkey, lookup_of_perm hperm]
  · next hkey =>
    rw [← lookup_of_perm hperm, eq_comm]
    apply List.lookup_eq_none_iff.mpr
    intro entry hentry
    exact bne_iff_ne.mpr fun heq => hkey (heq.symm ▸ (hentries entry hentry).1)

/-- Two entries in the other order, with tabs and blanks around them, a line between them that has
another key, and no newline at the end. -/
theorem configuration_parses_two :
    let m : ConfigMap := Std.TreeMap.ofList [(lit "IP", lit "127.0.0.1"), (lit "LOG_PATH", lit "my log")]
    ∀ key : Str, (Configuration.configMap
      (some (lit "\n LOG_PATH\t my log \nMODE fast\nIP 127.0.0.1")))[key]? = m[key]? := by
  intro m
  have hlist : m.toList = [(lit "IP", lit "127.0.0.1"), (lit "LOG_PATH", lit "my log")] := by
    decide
  have hprints : Prints [(lit "LOG_PATH", lit "my log"), (lit "IP", lit "127.0.0.1")]
      [[], lit " LOG_PATH\t my log ", lit "MODE fast", lit "IP 127.0.0.1"] := by
    refine .blank (by decide) ?_
    refine .entry (show Spaces (lit " ") by decide) (show Spaces (lit "\t ") by decide)
      (show Spaces (lit " ") by decide) (by decide) ?_
    refine .unknown (by decide) ?_ ?_
    · intro word rest h
      obtain ⟨rfl, -⟩ := Prod.mk.inj (Option.some.inj (h.symm.trans
        (show extract (lit "MODE fast") = some (lit "MODE", lit " fast") by decide)))
      decide
    · exact .entry (show Spaces [] by decide) (show Spaces (lit " ") by decide)
        (show Spaces [] by decide) (by decide) .nil
  refine configuration_parses.2 m _ _ _ ?_ ?_ hprints (.inr ?_)
  · rw [hlist]
    decide
  · rw [hlist]
    exact List.Perm.swap _ _ _
  · decide

end LightSearch
