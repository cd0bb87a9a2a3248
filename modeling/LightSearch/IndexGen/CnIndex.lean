import LightSearch.IndexGen.Dictionary

/-!
# The Chinese index

What `buildCnDict` leaves behind: its words are ASCII letters, digits and ideographs
(`buildCnDict_tables`), so a statement that inserts one denotes the word (`cnInsert_literal`), and its
index has the number of a word under each piece of three bytes of the word, and nothing else
(`has_collectIndexcn`). So the two tables join a piece to the words that have it (`joins_cnTables`).
-/

set_option autoImplicit false

namespace LightSearch

open Cxx HashMap Run

/-! ## What `buildCnDict` keeps -/

/-- The characters of a dictionary word: ASCII letters and digits, and ideographs. -/
def isWordChar (ch : Char) : Bool := isWide isalnum ch || isIdeograph ch

/-- A dictionary word. -/
def IsWord (word : Str) : Prop := ∃ cs : List Char, word = Utf8.encode cs ∧ ∀ ch ∈ cs, isWordChar ch = true

/-- The ASCII characters. -/
def isAscii (ch : Char) : Bool := ch.toNat < 128

theorem utf8Size_eq_one_iff {c : Char} : c.utf8Size = 1 ↔ isAscii c = true := by
  unfold isAscii
  rw [Char.utf8Size_eq_one_iff, UInt32.le_iff_toNat_le, decide_eq_true_iff]
  exact Nat.lt_succ_iff.symm

theorem utf8Size_eq_three_of_isIdeograph {c : Char} (h : isIdeograph c = true) : c.utf8Size = 3 := by
  unfold isIdeograph at h
  rw [Bool.and_eq_true, decide_eq_true_iff, decide_eq_true_iff] at h
  rw [Char.utf8Size_eq_three_iff, UInt32.lt_iff_toNat_lt, UInt32.le_iff_toNat_le]
  show 0x7ff < c.toNat ∧ c.toNat ≤ 0xffff
  omega

/-- A character of a word that is not an ASCII character is an ideograph. -/
theorem isIdeograph_of_not_isAscii {c : Char} (hword : isWordChar c = true)
    (hascii : isAscii c ≠ true) : isIdeograph c = true := by
  unfold isWordChar isWide at hword
  rw [Bool.or_eq_true, Bool.and_eq_true] at hword
  exact hword.resolve_left fun hwide => hascii hwide.1

theorem isWordChar_of_kept {ch : Char} (hkept : keptByRule ch = true)
    (hpunct : isWide ispunct ch = false) : isWordChar ch = true := by
  have hascii : ∀ n : Fin 128, 48 ≤ n.val → n.val ≤ 122 →
      (97 ≤ n.val ∧ n.val ≤ 122) ∨ (65 ≤ n.val ∧ n.val ≤ 122) ∨ (48 ≤ n.val ∧ n.val ≤ 57) →
      ispunct n.val.toUInt8 = false → isalnum n.val.toUInt8 = true := by decide
  unfold keptByRule at hkept
  unfold isWordChar
  by_cases hideograph : isIdeograph ch = true
  · rw [hideograph, Bool.or_true]
  · rw [Bool.not_eq_true] at hideograph
    rw [hideograph, Bool.or_false] at hkept ⊢
    simp only [Bool.or_eq_true, Bool.and_eq_true, decide_eq_true_eq, or_assoc] at hkept
    have hlow : ch.toNat < 128 := by omega
    unfold isWide at hpunct ⊢
    rw [decide_eq_true hlow, Bool.true_and] at hpunct ⊢
    exact hascii ⟨ch.toNat, hlow⟩ (by dsimp only; omega) (by dsimp only; omega) hkept hpunct

/-- What is counted for a token is a dictionary word. -/
theorem isWord_of_countedToken {stopen stopcn : List Str} {token word : Str}
    (h : countedToken stopen stopcn token = .ok (some word)) : IsWord word := by
  unfold countedToken at h
  split at h
  · cases h
  · obtain ⟨ws, -, h⟩ := Except.bind_eq_ok.mp h
    dsimp only at h
    split at h
    · cases h
    · next hflag =>
      split at h
      · cases h
      · split at h
        · cases h
        · split at h
          · cases h
          · obtain rfl := Option.some.inj (Except.ok.inj h)
            refine ⟨ws.filter keptByRule, rfl, fun ch hch => ?_⟩
            apply isWordChar_of_kept (List.of_mem_filter hch)
            rw [Bool.not_eq_true, List.any_eq_false] at hflag
            have hnone := hflag ch hch
            rw [Bool.not_eq_true, Bool.or_eq_false_iff] at hnone
            exact hnone.1

theorem mem_bumpCn {dictcn : Std.TreeMap Str Nat} {word key : Str} :
    key ∈ bumpCn dictcn word ↔ word = key ∨ key ∈ dictcn := by
  unfold bumpCn
  split <;> rw [Std.TreeMap.mem_insert, Std.LawfulEqCmp.compare_eq_iff_eq]

/-- The dictionary only has dictionary words. -/
theorem isWord_of_countChinese {cut : Str → List Str} {stopen stopcn : List Str}
    {files : List (Option Str)} {dictcn dictcn' : Std.TreeMap Str Nat} {good : Bool}
    (hwords : ∀ word ∈ dictcn, IsWord word)
    (h : countChinese cut stopen stopcn dictcn files = .ok (dictcn', good)) :
    ∀ word ∈ dictcn', IsWord word := by
  have htoken : ∀ (dictcn : Std.TreeMap Str Nat) (token : Str) (dictcn' : Std.TreeMap Str Nat),
      (∀ word ∈ dictcn, IsWord word) → countCnToken stopen stopcn dictcn token = .ok dictcn' →
      ∀ word ∈ dictcn', IsWord word := by
    intro dictcn token dictcn' hwords hstep
    obtain ⟨counted, hcounted, hstep⟩ := Except.bind_eq_ok.mp hstep
    cases counted with
    | none =>
      obtain rfl := Except.ok.inj hstep
      exact hwords
    | some word =>
      obtain rfl := Except.ok.inj hstep
      intro key hkey
      rcases mem_bumpCn.mp hkey with rfl | hkey
      · exact isWord_of_countedToken hcounted
      · exact hwords key hkey
  induction files generalizing dictcn with
  | nil =>
    obtain ⟨rfl, -⟩ := Prod.mk.inj (Except.ok.inj h)
    exact hwords
  | cons file files ih =>
    cases file with
    | none =>
      obtain ⟨rfl, -⟩ := Prod.mk.inj (Except.ok.inj h)
      exact hwords
    | some contents =>
      obtain ⟨dictcn₁, hrun, hrest⟩ := Except.bind_eq_ok.mp h
      exact ih (run_keeps (fun dictcn => ∀ word ∈ dictcn, IsWord word) htoken hwords hrun) hrest

/-- The two tables of a Chinese dictionary: the words are inserted in the order of the map, and the
index is what is collected in the same loop. -/
def cnTables (dictcn : Std.TreeMap Str Nat) : DictTables :=
  ⟨autoIncrement dictcn.toList, indexcnRows (collectIndexcn ∅ dictcn.toList)⟩

theorem countChinese_good {cut : Str → List Str} {stopen stopcn : List Str}
    {files : List (Option Str)} (hopen : ∀ file ∈ files, file.isSome)
    {dictcn dictcn' : Std.TreeMap Str Nat} {good : Bool}
    (h : countChinese cut stopen stopcn dictcn files = .ok (dictcn', good)) : good = true := by
  induction files generalizing dictcn with
  | nil => exact (Prod.mk.inj (Except.ok.inj h)).2.symm
  | cons file files ih =>
    have hfiles : ∀ f ∈ files, f.isSome := fun f hf => hopen f (List.mem_cons_of_mem _ hf)
    cases file with
    | none => exact absurd (hopen none List.mem_cons_self) Bool.false_ne_true
    | some contents =>
      obtain ⟨dictcn₁, -, hrest⟩ := Except.bind_eq_ok.mp h
      exact ih hfiles hrest

/-- **What `buildCnDict` leaves behind** when it comes to its end: dictionary words, and their
tables. -/
theorem buildCnDict_tables {cut : Str → List Str} {m m' : DicProducer} {inserts : List (Str × Nat)}
    (hopen : ∀ file ∈ m.filescn, file.isSome) (hdictcn : m.dictcn = ∅) (hindexcn : m.indexcn = ∅)
    (h : m.buildCnDict cut = .ok (m', inserts)) :
    (∀ word ∈ m'.dictcn, IsWord word) ∧
      (⟨autoIncrement inserts, indexcnRows m'.indexcn⟩ : DictTables) = cnTables m'.dictcn := by
  unfold DicProducer.buildCnDict at h
  obtain ⟨⟨dictcn, good⟩, hcount, h⟩ := Except.bind_eq_ok.mp h
  obtain rfl := countChinese_good hopen hcount
  obtain ⟨rfl, rfl⟩ := Prod.mk.inj (Except.ok.inj h)
  have hempty : ∀ word ∈ m.dictcn, IsWord word := by
    intro word hword
    rw [hdictcn] at hword
    exact absurd hword Std.TreeMap.not_mem_emptyc
  refine ⟨isWord_of_countChinese hempty hcount, ?_⟩
  show DictTables.mk (autoIncrement dictcn.toList)
    (indexcnRows (collectIndexcn m.indexcn dictcn.toList)) = _
  rw [hindexcn]
  rfl

/-- Dictionary words can stand between quotes. -/
theorem quotable_of_isWord {word : Str} (h : IsWord word) : ∀ ch ∈ word, Quotable ch := by
  have halnum : ∀ ch : UInt8, isalnum ch = true → Quotable ch := forall_byte (by decide +kernel)
  obtain ⟨cs, rfl, hcs⟩ := h
  intro ch hch
  obtain ⟨c, hc, hch⟩ := List.mem_flatMap.mp hch
  by_cases hascii : isAscii c = true
  · have hword := hcs c hc
    rw [String.utf8EncodeChar_eq_singleton (utf8Size_eq_one_iff.mpr hascii)] at hch
    obtain rfl := List.mem_singleton.mp hch
    apply halnum
    unfold isWordChar at hword
    rcases (Bool.or_eq_true _ _).mp hword with hwide | hideograph
    · exact ((Bool.and_eq_true _ _).mp hwide).2
    · have hthree := utf8Size_eq_three_of_isIdeograph hideograph
      rw [utf8Size_eq_one_iff.mpr hascii] at hthree
      cases hthree
  · exact quotable_of_not_ascii (Utf8.le_of_mem_encodeChar (mt utf8Size_eq_one_iff.mp hascii) hch)

/-- **The statement that inserts a dictionary word denotes the word.** -/
theorem cnInsert_literal {entry : Str × Nat} (h : IsWord entry.1) :
    ∃ before rest after, cnInsert entry = before ++ Sql.quote :: rest ∧
      (∀ ch ∈ before, Sql.Plain ch) ∧ Sql.literal rest = some (entry.1, after) := by
  have hopen : lit "INSERT INTO dictCn (word,frequency) VALUES ('" =
      lit "INSERT INTO dictCn (word,frequency) VALUES (" ++ [Sql.quote] := by decide
  have hclose : lit "'," = Sql.quote :: lit "," := by decide
  have hplain : (lit "INSERT INTO dictCn (word,frequency) VALUES (").all
      (fun ch => decide (Sql.Plain ch)) = true := by decide
  have hafter : (lit "," ++ (decimal entry.2 ++ lit ");")).head? ≠ some Sql.quote := by
    rw [List.head?_append_of_ne_nil _ (by decide)]
    decide
  refine ⟨lit "INSERT INTO dictCn (word,frequency) VALUES (",
    entry.1 ++ Sql.quote :: (lit "," ++ (decimal entry.2 ++ lit ");")),
    lit "," ++ (decimal entry.2 ++ lit ");"), ?_, ?_, ?_⟩
  · unfold cnInsert
    simp only [hopen, hclose, List.append_assoc, List.cons_append, List.nil_append]
  · intro ch hch
    exact of_decide_eq_true (List.all_eq_true.mp hplain ch hch)
  · exact Sql.literal_plain (fun ch hch => (quotable_of_isWord h ch hch).2) hafter

/-! ## The index -/

/-- The index has a number under a key. -/
def IndexCn.Has (indexcn : IndexCn) (str : Str) (line : Nat) : Prop :=
  ∃ lines, indexcn[str]? = some lines ∧ line ∈ lines

theorem has_addLine {indexcn : IndexCn} {str str' : Str} {line line' : Nat} :
    (addLine line indexcn str).Has str' line' ↔
      indexcn.Has str' line' ∨ (str' = str ∧ line' = line) := by
  have hinsert : ∀ lines : Std.TreeSet Nat, (∀ n, n ∈ lines ↔ indexcn.Has str n ∨ n = line) →
      (IndexCn.Has (indexcn.insert str lines) str' line' ↔
        indexcn.Has str' line' ∨ (str' = str ∧ line' = line)) := by
    intro lines hlines
    unfold IndexCn.Has
    simp only [Std.TreeMap.getElem?_insert, Std.LawfulEqCmp.compare_eq_iff_eq]
    by_cases hstr : str = str'
    · subst hstr
      simp only [↓reduceIte, Option.some.injEq, exists_eq_left', hlines, true_and]
      rfl
    · simp only [if_neg hstr, Ne.symm hstr, false_and, or_false]
  unfold addLine
  split
  · next hnone =>
    apply hinsert
    intro n
    rw [Std.TreeSet.mem_insert, Std.LawfulEqCmp.compare_eq_iff_eq]
    constructor
    · rintro (rfl | hempty)
      · exact .inr rfl
      · exact absurd hempty Std.TreeSet.not_mem_emptyc
    · rintro (⟨lines, hlines, -⟩ | rfl)
      · rw [hnone] at hlines
        cases hlines
      · exact .inl rfl
  · next lines hlines =>
    apply hinsert
    intro n
    rw [Std.TreeSet.mem_insert, Std.LawfulEqCmp.compare_eq_iff_eq]
    constructor
    · rintro (rfl | hmem)
      · exact .inr rfl
      · exact .inl ⟨lines, hlines, hmem⟩
    · rintro (⟨lines', hlines', hmem⟩ | rfl)
      · rw [hlines] at hlines'
        obtain rfl := Option.some.inj hlines'
        exact .inr hmem
      · exact .inl rfl

/-- A word puts its number under its pieces. -/
theorem has_addLines {strs : List Str} {indexcn : IndexCn} {str : Str} {line line' : Nat} :
    (strs.foldl (addLine line) indexcn).Has str line' ↔
      indexcn.Has str line' ∨ (str ∈ strs ∧ line' = line) := by
  induction strs generalizing indexcn with
  | nil => simp only [List.foldl_nil, List.not_mem_nil, false_and, or_false]
  | cons s strs ih => rw [List.foldl_cons, ih, has_addLine, List.mem_cons, or_and_right, or_assoc]

/-- The index has the number of each word under the pieces of the word, and nothing else. -/
theorem has_collectIndexcn {dictcn : List (Str × Nat)} {str : Str} {line : Nat} :
    (collectIndexcn ∅ dictcn).Has str line ↔
      ∃ entry, (entry, line) ∈ dictcn.zipIdx 1 ∧ str ∈ threeBytes entry.1 := by
  have hfold : ∀ (l : List ((Str × Nat) × Nat)) (indexcn : IndexCn),
      (l.foldl (fun indexcn elem => (threeBytes elem.1.1).foldl (addLine elem.2) indexcn)
        indexcn).Has str line ↔
      indexcn.Has str line ∨ ∃ entry, (entry, line) ∈ l ∧ str ∈ threeBytes entry.1 := by
    intro l
    induction l with
    | nil => simp only [List.foldl_nil, List.not_mem_nil, false_and, exists_false, or_false,
        implies_true]
    | cons elem l ih =>
      intro indexcn
      rw [List.foldl_cons, ih, has_addLines, or_assoc]
      apply or_congr_right
      constructor
      · rintro (⟨hstr, rfl⟩ | ⟨entry, hentry, hstr⟩)
        · exact ⟨elem.1, List.mem_cons_self, hstr⟩
        · exact ⟨entry, List.mem_cons_of_mem _ hentry, hstr⟩
      · rintro ⟨entry, hentry, hstr⟩
        rcases List.mem_cons.mp hentry with rfl | hentry
        · exact .inl ⟨hstr, rfl⟩
        · exact .inr ⟨entry, hentry, hstr⟩
  unfold collectIndexcn
  rw [hfold]
  apply or_iff_right
  rintro ⟨lines, hlines, -⟩
  rw [Std.TreeMap.getElem?_emptyc] at hlines
  cases hlines

/-- The pieces of a byte string: what stands at a multiple of three. -/
theorem mem_threeBytes {m str : Str} :
    str ∈ threeBytes m ↔
      str.length = 3 ∧ ∃ pre post, m = pre ++ (str ++ post) ∧ 3 ∣ pre.length := by
  induction m using threeBytes.induct with
  | case1 a b c m ih =>
    rw [threeBytes, List.mem_cons, ih]
    constructor
    · rintro (rfl | ⟨hlen, pre, post, rfl, hdvd⟩)
      · exact ⟨rfl, [], m, rfl, Nat.dvd_zero 3⟩
      · refine ⟨hlen, a :: b :: c :: pre, post, rfl, ?_⟩
        show 3 ∣ pre.length + 3
        omega
    · rintro ⟨hlen, pre, post, heq, hdvd⟩
      match pre, hdvd with
      | [], _ =>
        -- the piece is the first one
        left
        have htake := congrArg (List.take 3) heq
        rw [List.nil_append, ← hlen, List.take_left, hlen] at htake
        exact htake.symm
      | x :: y :: z :: pre, hdvd =>
        right
        obtain ⟨-, -, -, hm⟩ : x = a ∧ y = b ∧ z = c ∧ m = pre ++ (str ++ post) := by
          simpa [eq_comm] using heq
        refine ⟨hlen, pre, post, hm, ?_⟩
        have hlong : 3 ∣ pre.length + 3 := hdvd
        omega
      | [x], hdvd => exact absurd (Nat.le_of_dvd Nat.one_pos hdvd) (by decide : ¬ 3 ≤ 1)
      | [x, y], hdvd => exact absurd (Nat.le_of_dvd Nat.two_pos hdvd) (by decide : ¬ 3 ≤ 2)
  | case2 m hshort =>
    rw [threeBytes.eq_2 m hshort]
    refine iff_of_false List.not_mem_nil ?_
    rintro ⟨hlen, pre, post, heq, -⟩
    have hlong : 3 ≤ m.length := by
      rw [heq, List.length_append, List.length_append, hlen]
      omega
    match m, hlong, hshort with
    | a :: b :: c :: rest, _, hshort => exact hshort a b c rest rfl

/-- A word has a piece. -/
def HasPiece (word str : Str) : Prop := str ∈ threeBytes word

/-- A piece is a part of the word. -/
theorem mem_of_hasPiece {word str : Str} (h : HasPiece word str) {ch : UInt8} (hch : ch ∈ str) :
    ch ∈ word := by
  obtain ⟨-, pre, post, rfl, -⟩ := mem_threeBytes.mp h
  exact List.mem_append_right _ (List.mem_append_left _ hch)

theorem mem_indexcnRows {dictcn : List (Str × Nat)} (i : IndexRow) :
    i ∈ indexcnRows (collectIndexcn ∅ dictcn) ↔
      ∃ entry, (entry, i.indexId) ∈ dictcn.zipIdx 1 ∧ HasPiece entry.1 i.character := by
  unfold HasPiece
  rw [← has_collectIndexcn]
  unfold indexcnRows IndexCn.Has
  simp only [List.mem_flatMap, List.mem_map, Std.TreeSet.mem_toList]
  constructor
  · rintro ⟨⟨str, lines⟩, hmem, line, hline, rfl⟩
    exact ⟨lines, Std.TreeMap.mem_toList_iff_getElem?_eq_some.mp hmem, hline⟩
  · rintro ⟨lines, hlines, hline⟩
    exact ⟨(i.character, lines), Std.TreeMap.mem_toList_iff_getElem?_eq_some.mpr hlines,
      i.indexId, hline, rfl⟩

/-- The two tables join a character to the words that have it as a piece. -/
theorem joins_cnTables {dictcn : Std.TreeMap Str Nat} {str word : Str} {frequency : Nat} :
    (cnTables dictcn).Joins str word frequency ↔
      dictcn[word]? = some frequency ∧ str ∈ threeBytes word := by
  rw [← Std.TreeMap.mem_toList_iff_getElem?_eq_some]
  exact joins_autoIncrement mem_indexcnRows

end LightSearch
