import Mathlib.Algebra.GroupWithZero.Nat
import LightSearch.IndexGen.BuiltDictionary
import LightSearch.Utility.CppJieba

/-!
# The Chinese dictionary counts its words

`buildCnDict` counts what the rule leaves of the tokens of the articles. So an entry is a word that some
token becomes, with the number of these tokens (`buildCnDict_tallied`).

The tokens are those of `JiebaTool`. When the rule makes the same word of no other word of the segmenter,
the frequency of a word of ideographs is how often it occurs in the articles, also within longer words
(`frequency_occurrences`).
-/

set_option autoImplicit false

namespace LightSearch

open Cxx Run Cppjieba JiebaTool

/-! ## Counting -/

/-- A token is counted as a word. -/
def CountedAs (stopen stopcn : List Str) (word token : Str) : Prop :=
  countedToken stopen stopcn token = .ok (some word)

instance (stopen stopcn : List Str) (word token : Str) : Decidable (CountedAs stopen stopcn word token) :=
  inferInstanceAs (Decidable (_ = _))

/-- The entries are the words that some tokens are counted as, each with the number of these tokens. -/
def Tallied (stopen stopcn : List Str) (dictcn : Std.TreeMap Str Nat) (tokens : List Str) : Prop :=
  ∀ word n, dictcn[word]? = some n ↔
    n = tokens.countP (fun token => CountedAs stopen stopcn word token) ∧ 0 < n

theorem getElem?_bumpCn (dictcn : Std.TreeMap Str Nat) (word key : Str) :
    (bumpCn dictcn word)[key]? =
      if key = word then some ((dictcn[word]?).getD 0 + 1) else dictcn[key]? := by
  have hinsert : ∀ n, (dictcn.insert word n)[key]? = if key = word then some n else dictcn[key]? := by
    intro n
    rw [Std.TreeMap.getElem?_insert]
    simp only [Std.LawfulEqCmp.compare_eq_iff_eq, @eq_comm _ word key]
  unfold bumpCn
  split
  · next h => rw [hinsert, h, Option.getD_none]
  · next h => rw [hinsert, h, Option.getD_some]

section Count

variable {stopen stopcn : List Str} {dictcn dictcn' : Std.TreeMap Str Nat} {tokens : List Str}

theorem tallied_empty : Tallied stopen stopcn ∅ [] := by
  intro word n
  rw [Std.TreeMap.getElem?_emptyc, List.countP_nil]
  constructor
  · intro h
    cases h
  · rintro ⟨rfl, hpos⟩
    exact absurd hpos (Nat.lt_irrefl 0)

/-- An entry that is not there counts as 0. -/
theorem Tallied.getD (h : Tallied stopen stopcn dictcn tokens) (word : Str) :
    (dictcn[word]?).getD 0 = tokens.countP fun token => CountedAs stopen stopcn word token := by
  cases hentry : dictcn[word]? with
  | none =>
    rw [Option.getD_none]
    by_contra hne
    have hsome := (h word _).mpr ⟨rfl, Nat.pos_of_ne_zero (Ne.symm hne)⟩
    rw [hentry] at hsome
    cases hsome
  | some n =>
    exact ((h word n).mp hentry).1

/-- **One token.** -/
theorem Tallied.step (h : Tallied stopen stopcn dictcn tokens) {token : Str}
    (hstep : countCnToken stopen stopcn dictcn token = .ok dictcn') :
    Tallied stopen stopcn dictcn' (tokens ++ [token]) := by
  obtain ⟨counted, hcounted, hstep⟩ := Except.bind_eq_ok.mp hstep
  intro word n
  rw [List.countP_append, List.countP_singleton]
  cases counted with
  | none =>
    obtain rfl := Except.ok.inj hstep
    have hother : ¬ CountedAs stopen stopcn word token := by
      intro hword
      cases hcounted.symm.trans hword
    rw [if_neg (by simpa using hother), Nat.add_zero]
    exact h word n
  | some counted =>
    obtain rfl := Except.ok.inj hstep
    rw [getElem?_bumpCn]
    by_cases hword : word = counted
    · subst hword
      have hsame : CountedAs stopen stopcn word token := hcounted
      rw [if_pos rfl, if_pos (decide_eq_true hsame), h.getD word, Option.some.injEq]
      omega
    · have hother : ¬ CountedAs stopen stopcn word token := by
        intro h
        cases hcounted.symm.trans h
        exact hword rfl
      rw [if_neg hword, if_neg (by simpa using hother), Nat.add_zero]
      exact h word n

theorem Tallied.run (h : Tallied stopen stopcn dictcn tokens) {later : List Str}
    (hrun : run (countCnToken stopen stopcn) dictcn later = .ok dictcn') :
    Tallied stopen stopcn dictcn' (tokens ++ later) := by
  induction later generalizing dictcn tokens with
  | nil =>
    obtain rfl := Except.ok.inj hrun
    rwa [List.append_nil]
  | cons token later ih =>
    rw [run_cons] at hrun
    obtain ⟨dictcn₁, hstep, hrest⟩ := Except.bind_eq_ok.mp hrun
    have hlater := ih (h.step hstep) hrest
    rwa [List.append_assoc] at hlater

/-- The loop over the articles counts the tokens of those that it reads. -/
theorem Tallied.articles {cut : Str → List Str} {files : List (Option Str)} {good : Bool}
    (h : Tallied stopen stopcn dictcn tokens)
    (hrun : countChinese cut stopen stopcn dictcn files = .ok (dictcn', good)) :
    Tallied stopen stopcn dictcn' (tokens ++ (articlesRead files).flatMap cut) := by
  induction files generalizing dictcn tokens with
  | nil =>
    obtain ⟨rfl, -⟩ := Prod.mk.inj (Except.ok.inj hrun)
    rwa [articlesRead, List.flatMap_nil, List.append_nil]
  | cons file files ih =>
    cases file with
    | none =>
      obtain ⟨rfl, -⟩ := Prod.mk.inj (Except.ok.inj hrun)
      rwa [articlesRead, List.flatMap_nil, List.append_nil]
    | some contents =>
      obtain ⟨dictcn₁, htokens, hrest⟩ := Except.bind_eq_ok.mp hrun
      have hlater := ih (h.run htokens) hrest
      rwa [List.append_assoc] at hlater

end Count

/-- **What `buildCnDict` counts.** -/
theorem buildCnDict_tallied {cut : Str → List Str} {m m' : DicProducer} {inserts : List (Str × Nat)}
    (hdictcn : m.dictcn = ∅) (h : m.buildCnDict cut = .ok (m', inserts)) :
    Tallied m.stopen m.stopcn m'.dictcn ((articlesRead m.filescn).flatMap cut) := by
  unfold DicProducer.buildCnDict at h
  obtain ⟨⟨dictcn, good⟩, hcount, h⟩ := Except.bind_eq_ok.mp h
  rw [hdictcn] at hcount
  have htallied := tallied_empty.articles hcount
  rw [List.nil_append] at htallied
  cases good with
  | true =>
    obtain ⟨rfl, -⟩ := Prod.mk.inj (Except.ok.inj h)
    exact htallied
  | false =>
    obtain ⟨rfl, -⟩ := Prod.mk.inj (Except.ok.inj h)
    exact htallied

/-! ## Words of the segmenter -/

/-- The converter gives the characters of a text. -/
theorem fromBytes_encode (cs : List Char) : fromBytes (Utf8.encode cs) = .ok cs := by
  have hdecode : (Utf8.encode cs).toByteArray.utf8Decode? = some cs.toArray :=
    List.utf8Decode?_utf8Encode
  unfold fromBytes
  rw [hdecode]

theorem length_le_encode (cs : List Char) : cs.length ≤ (Utf8.encode cs).length := by
  induction cs with
  | nil => exact Nat.zero_le _
  | cons c cs ih =>
    have hpos := c.utf8Size_pos
    rw [Utf8.encode_cons, List.length_append, String.length_utf8EncodeChar, List.length_cons]
    omega

/-- An ideograph is no ASCII character. -/
theorem isWide_of_isIdeograph {c : Char} (h : isIdeograph c = true) (is : UInt8 → Bool) :
    isWide is c = false := by
  have hlarge : ¬ c.toNat < 128 := by
    unfold isIdeograph at h
    rw [Bool.and_eq_true, decide_eq_true_iff] at h
    omega
  unfold isWide
  rw [decide_eq_false hlarge, Bool.false_and]

/-- **What is counted for a text** that the rule makes a word of ideographs of: the word, if it is no stop
word. -/
theorem countedAs_encode {stopen stopcn : List Str} {us ws : List Char} (hlong : 2 ≤ ws.length)
    (hideographs : ∀ c ∈ ws, isIdeograph c = true) (hstopen : Utf8.encode ws ∉ stopen)
    (hstopcn : Utf8.encode ws ∉ stopcn) :
    CountedAs stopen stopcn (Utf8.encode ws) (Utf8.encode us) ↔ us.filter keptByRule = ws := by
  constructor
  · intro h
    unfold CountedAs countedToken at h
    split at h
    · cases h
    · rw [fromBytes_encode, Except.ok_bind] at h
      dsimp only at h
      split at h
      · cases h
      · split at h
        · cases h
        · split at h
          · cases h
          · split at h
            · cases h
            · exact Utf8.encode_injective (Option.some.inj (Except.ok.inj h))
  · rintro rfl
    have hplain : ((us.filter keptByRule).any fun ch => isWide ispunct ch || isWide isspace ch) =
        false := by
      rw [List.any_eq_false]
      intro c hc
      rw [isWide_of_isIdeograph (hideographs c hc), isWide_of_isIdeograph (hideographs c hc)]
      decide
    have hsize := length_le_encode (us.filter keptByRule)
    have hsize' := length_le_encode us
    have hkept := List.length_filter_le keptByRule us
    have hone : (decide ((Utf8.encode (us.filter keptByRule)).length = 1)) = false :=
      decide_eq_false (by omega)
    unfold CountedAs countedToken
    rw [if_neg (by omega), fromBytes_encode, Except.ok_bind]
    dsimp only
    rw [hplain, if_neg Bool.false_ne_true, if_neg (by omega), hone, Bool.false_and,
      if_neg Bool.false_ne_true, if_neg (not_or.mpr ⟨hstopen, hstopcn⟩)]

section Occurrences

variable {W : Type} [Zero W] {dict : DictTrie W} {stopen stopcn : List Str} {ws : List Char}

/-- Of the tokens of a text only the word itself is counted as the word, when the rule makes it of no
other word of the segmenter. -/
theorem countedAs_token (hlong : 2 ≤ ws.length) (hideographs : ∀ c ∈ ws, isIdeograph c = true)
    (hsole : ∀ us, dict.Knows (us.map Char.val) → us.filter keptByRule = ws → us = ws)
    (hstopen : Utf8.encode ws ∉ stopen) (hstopcn : Utf8.encode ws ∉ stopcn) {cs : List Char}
    {token : Str} (htoken : token ∈ tokens dict (Utf8.encode cs)) :
    CountedAs stopen stopcn (Utf8.encode ws) token ↔ token = Utf8.encode ws := by
  obtain ⟨runes, -, htokens⟩ := tokens_encode dict cs
  obtain ⟨us, rfl⟩ : ∃ us, token = Utf8.encode us := by
    have hmem := htoken
    rw [htokens] at hmem
    obtain ⟨wr, -, rfl⟩ := List.mem_map.mp hmem
    exact ⟨_, rfl⟩
  rw [countedAs_encode hlong hideographs hstopen hstopcn]
  constructor
  · intro hkept
    have hlength := List.length_filter_le keptByRule us
    rw [hkept] at hlength
    obtain ⟨hknows, -, -⟩ := (mem_tokens_encode (hlong.trans hlength)).mp htoken
    rw [hsole us hknows hkept]
  · intro heq
    obtain rfl := Utf8.encode_injective heq
    refine List.filter_eq_self.mpr fun c hc => ?_
    unfold keptByRule
    rw [hideographs c hc, Bool.or_true]

/-- An ideograph is no separator. -/
theorem not_separator_of_isIdeograph {c : Char} (h : isIdeograph c = true) : ¬ Separator c := by
  unfold isIdeograph at h
  rw [Bool.and_eq_true, decide_eq_true_iff, decide_eq_true_iff] at h
  obtain ⟨hlow, hhigh⟩ := h
  unfold Separator
  rw [symbols_eq]
  intro hmem
  have hcases : c.toNat = 0x20 ∨ c.toNat = 0x09 ∨ c.toNat = 0x0a ∨ c.toNat = 0xff0c ∨
      c.toNat = 0x3002 := by
    simp only [List.mem_cons, List.not_mem_nil, or_false] at hmem
    exact hmem.imp (congrArg UInt32.toNat) (Or.imp (congrArg UInt32.toNat) (Or.imp
      (congrArg UInt32.toNat) (Or.imp (congrArg UInt32.toNat) (congrArg UInt32.toNat))))
  omega

/-- Texts do not make the converter throw. -/
theorem countCnToken_encode (stopen stopcn : List Str) (dictcn : Std.TreeMap Str Nat) (us : List Char) :
    ∃ dictcn', countCnToken stopen stopcn dictcn (Utf8.encode us) = .ok dictcn' := by
  have hcounted : ∃ counted, countedToken stopen stopcn (Utf8.encode us) = .ok counted := by
    unfold countedToken
    split
    · exact ⟨_, rfl⟩
    · rw [fromBytes_encode, Except.ok_bind]
      dsimp only
      split_ifs <;> exact ⟨_, rfl⟩
  obtain ⟨counted, hcounted⟩ := hcounted
  unfold countCnToken
  rw [hcounted, Except.ok_bind]
  cases counted with
  | none => exact ⟨_, rfl⟩
  | some word => exact ⟨_, rfl⟩

theorem exists_countChinese (dict : DictTrie W) (stopen stopcn : List Str) (files : List (Option Str))
    {texts : List (List Char)} (htexts : articlesRead files = texts.map Utf8.encode)
    (dictcn : Std.TreeMap Str Nat) :
    ∃ counted, countChinese (tokens dict) stopen stopcn dictcn files = .ok counted := by
  induction files generalizing texts dictcn with
  | nil => exact ⟨_, rfl⟩
  | cons file files ih =>
    cases file with
    | none => exact ⟨_, rfl⟩
    | some contents =>
      obtain ⟨cs, texts, rfl, rfl, hrest⟩ := List.map_eq_cons_iff.mp htexts.symm
      obtain ⟨runes, -, htokens⟩ := tokens_encode dict cs
      have hvalid : ∀ token ∈ tokens dict (Utf8.encode cs), ∃ us, Utf8.encode us = token := by
        intro token htoken
        rw [htokens] at htoken
        obtain ⟨wr, -, rfl⟩ := List.mem_map.mp htoken
        exact ⟨_, rfl⟩
      have hstep : ∀ dictcn token, True → (∃ us, Utf8.encode us = token) →
          ∃ dictcn', countCnToken stopen stopcn dictcn token = .ok dictcn' ∧ True := by
        rintro dictcn _ - ⟨us, rfl⟩
        obtain ⟨dictcn', hstep⟩ := countCnToken_encode stopen stopcn dictcn us
        exact ⟨dictcn', hstep, trivial⟩
      obtain ⟨dictcn₁, hrun, -⟩ := run_total (fun _ => True) _ hstep (s := dictcn) trivial _ hvalid
      obtain ⟨counted, hrest⟩ := ih hrest.symm dictcn₁
      exact ⟨counted, by rw [countChinese, hrun, Except.ok_bind, hrest]⟩

theorem exists_buildCnDict (dict : DictTrie W) (m : DicProducer) {texts : List (List Char)}
    (htexts : articlesRead m.filescn = texts.map Utf8.encode) :
    ∃ m' inserts, m.buildCnDict (tokens dict) = .ok (m', inserts) := by
  obtain ⟨⟨dictcn, good⟩, hcount⟩ :=
    exists_countChinese dict m.stopen m.stopcn m.filescn htexts m.dictcn
  unfold DicProducer.buildCnDict
  rw [hcount, Except.ok_bind]
  cases good with
  | true => exact ⟨_, _, rfl⟩
  | false => exact ⟨_, _, rfl⟩

/-- **The frequency of a word is how often it occurs.** Take articles in UTF-8, cut by `JiebaTool`.
`buildCnDict` does not throw, and a word of two or more ideographs that the segmenter knows and that is no
stop word has an entry in the dictionary when it occurs in them, with the number of its occurrences. -/
theorem frequency_occurrences {m : DicProducer} (hdictcn : m.dictcn = ∅) {texts : List (List Char)}
    (htexts : articlesRead m.filescn = texts.map Utf8.encode) (hlong : 2 ≤ ws.length)
    (hideographs : ∀ c ∈ ws, isIdeograph c = true) (hknows : dict.Knows (ws.map Char.val))
    (hsole : ∀ us, dict.Knows (us.map Char.val) → us.filter keptByRule = ws → us = ws)
    (hstopen : Utf8.encode ws ∉ m.stopen) (hstopcn : Utf8.encode ws ∉ m.stopcn) :
    ∃ m' inserts, m.buildCnDict (tokens dict) = .ok (m', inserts) ∧
      ∀ n, m'.dictcn[Utf8.encode ws]? = some n ↔ n = (texts.map (occurrences ws)).sum ∧ 0 < n := by
  obtain ⟨m', inserts, h⟩ := exists_buildCnDict dict m htexts
  refine ⟨m', inserts, h, fun n => ?_⟩
  rw [buildCnDict_tallied hdictcn h, htexts, List.flatMap_map, List.countP_flatMap]
  have hcount : ∀ cs, (tokens dict (Utf8.encode cs)).countP
      (fun token => CountedAs m.stopen m.stopcn (Utf8.encode ws) token) = occurrences ws cs := by
    intro cs
    rw [← count_tokens_encode cs hlong hknows fun c hc =>
      not_separator_of_isIdeograph (hideographs c hc)]
    refine List.countP_congr fun token htoken => ?_
    rw [decide_eq_true_iff, beq_iff_eq]
    exact countedAs_token hlong hideographs hsole hstopen hstopcn htoken
  simp only [Function.comp_def, hcount]

end Occurrences

/-- Two articles. -/
theorem frequency_zhongguo :
    let m := DicProducer.init [] [some (lit "中国的中国"), some (lit "爱中国")] none none
    ∃ m' inserts, m.buildCnDict (tokens oneWordDict) = .ok (m', inserts) ∧
      m'.dictcn[lit "中国"]? = some 3 := by
  intro m
  have hsole : ∀ us : List Char, oneWordDict.Knows (us.map Char.val) →
      us.filter keptByRule = ['中', '国'] → us = ['中', '国'] := fun us hknows _ =>
    List.map_injective_iff.mpr (fun _ _ h => Char.ext h) (knows_oneWordDict.mp hknows)
  obtain ⟨m', inserts, h, hcount⟩ := @frequency_occurrences ℤ _ oneWordDict ['中', '国'] m rfl
    ["中国的中国".toList, "爱中国".toList] rfl (by decide) (List.all_eq_true.mp rfl)
    (knows_oneWordDict.mpr rfl) hsole List.not_mem_nil List.not_mem_nil
  exact ⟨m', inserts, h, (hcount 3).mpr (by decide)⟩

end LightSearch
