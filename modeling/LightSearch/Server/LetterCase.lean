import LightSearch.Client.ProtocolParser
import LightSearch.Dict.EditTable
import LightSearch.Dict.Ranking
import LightSearch.IndexGen.BuiltDictionary

/-!
# Capital letters in a message

The words of the English dictionary are in lower case. `doParse` puts a message of letters and blanks
in lower case too, but the mixed recommender looks its message up as it is, and measures the distances
from it as it is (`ignoresCase_iff`).

For any capital letter in a mixed message there is a dictionary that shows it. When the small letter is
not in the message, a word of it is found in lower case only (`small_unseen`). When it is, two words
change places: one is the message in lower case, as far as it can be a word, and the other, which is
more frequent, lacks what the capital letters become (`words_change_places`). Both words have the small
letter, so they would change places in a database that takes no notice of case, too.
-/

set_option autoImplicit false

namespace LightSearch

open Cxx Run EditDistance Levenshtein CandidateResult

/-! ## Characters in lower case -/

theorem toLower_byte : ∀ ch : UInt8,
    let lower := if isupper ch then tolower ch else ch
    isalpha lower = isalpha ch ∧ decide (lower = blank) = decide (ch = blank) ∧
      decide (Quotable lower) = decide (Quotable ch) ∧ isspace lower = isspace ch :=
  forall_byte (by decide +kernel)

theorem toLower_of_not_isupper {str : Str} (h : ∀ ch ∈ str, isupper ch = false) : toLower str = str := by
  unfold toLower
  refine (List.map_congr_left fun ch hch => ?_).trans (List.map_id str)
  rw [h ch hch]
  rfl

theorem toLower_toLower (str : Str) : toLower (toLower str) = toLower str := by
  apply toLower_of_not_isupper
  intro ch hch
  obtain ⟨ch', -, rfl⟩ := List.mem_map.mp hch
  exact (lower_byte ch').2.2

theorem isPureEnglish_toLower (str : Str) : isPureEnglish (toLower str) = isPureEnglish str := by
  unfold isPureEnglish toLower
  rw [List.all_map]
  congr 1
  funext ch
  obtain ⟨halpha, hblank, -⟩ := toLower_byte ch
  exact congr (congrArg _ halpha) hblank

theorem isPureChinese_toLower (str : Str) : isPureChinese (toLower str) = isPureChinese str := by
  unfold isPureChinese toLower
  rw [List.all_map]
  congr 1
  funext ch
  exact congrArg _ (toLower_byte ch).1

theorem allQuotable_toLower (str : Str) : AllQuotable (toLower str) ↔ AllQuotable str := by
  unfold AllQuotable toLower
  rw [List.forall_mem_map]
  refine forall₂_congr fun ch _ => ?_
  exact decide_eq_decide.mp (toLower_byte ch).2.2.1

/-- What holds of the ASCII characters holds of every character of one byte. -/
theorem forall_ascii {P : Char → Prop} (h : ∀ n : Fin 128, P (Char.ofNat n)) {c : Char}
    (hc : c.utf8Size = 1) : P c := by
  have hlt : c.toNat < 128 := Nat.lt_succ_of_le (UInt32.le_iff_toNat_le.mp (Char.utf8Size_eq_one_iff.mp hc))
  have hchar := h ⟨c.toNat, hlt⟩
  rwa [Char.ofNat_toNat] at hchar

theorem isupper_of_not_ascii : ∀ ch : UInt8, 128 ≤ ch → isupper ch = false :=
  forall_byte (by decide +kernel)

theorem encodeChar_toLower (c : Char) :
    String.utf8EncodeChar c.toLower = toLower (String.utf8EncodeChar c) := by
  by_cases hsize : c.utf8Size = 1
  · exact forall_ascii (P := fun c => String.utf8EncodeChar c.toLower = toLower (String.utf8EncodeChar c))
      (by decide) hsize
  · have hchar : c.toLower = c := by
      unfold Char.toLower
      rw [dif_neg]
      rintro ⟨-, hle⟩
      exact hsize (Char.utf8Size_eq_one_iff.mpr (UInt32.le_trans hle (by decide)))
    rw [hchar, toLower_of_not_isupper fun ch hch =>
      isupper_of_not_ascii ch (Utf8.le_of_mem_encodeChar hsize hch)]

theorem utf8Size_toLower (c : Char) : c.toLower.utf8Size = c.utf8Size := by
  rw [← String.length_utf8EncodeChar, encodeChar_toLower, ← String.length_utf8EncodeChar c]
  exact List.length_map _

theorem toLower_encode (cs : List Char) :
    toLower (Utf8.encode cs) = Utf8.encode (cs.map Char.toLower) := by
  induction cs with
  | nil => rfl
  | cons c cs ih =>
    rw [List.map_cons, Utf8.encode_cons, Utf8.encode_cons, encodeChar_toLower, ← ih]
    exact List.map_append

/-- A character that can stand in a word of the English dictionary when it is in lower case. -/
def plain (c : Char) : Bool :=
  (String.utf8EncodeChar c).all fun ch => !isspace ch && !isdigit ch && !ispunct ch

def capital (c : Char) : Bool := (String.utf8EncodeChar c).any isupper

theorem capital_toLower (c : Char) : capital c.toLower = false := by
  unfold capital
  rw [encodeChar_toLower]
  refine List.any_eq_false.mpr fun ch hch => ?_
  obtain ⟨ch', -, rfl⟩ := List.mem_map.mp hch
  rw [(lower_byte ch').2.2]
  exact Bool.false_ne_true

theorem plain_toLower (c : Char) : plain c.toLower = plain c := by
  unfold plain
  rw [encodeChar_toLower]
  unfold toLower
  rw [List.all_map]
  congr 1
  funext ch
  obtain ⟨hdigit, hpunct, -⟩ := lower_byte ch
  dsimp only [Function.comp_apply]
  rw [(toLower_byte ch).2.2.2, hdigit, hpunct]

/-- A capital letter is one byte, and can stand in a word when it is in lower case. -/
theorem capital_byte {c : Char} (h : capital c = true) :
    c.utf8Size = 1 ∧ plain c = true := by
  have hsize : c.utf8Size = 1 := by
    by_contra hsize
    obtain ⟨ch, hch, hupper⟩ := List.any_eq_true.mp h
    rw [isupper_of_not_ascii ch (Utf8.le_of_mem_encodeChar hsize hch)] at hupper
    cases hupper
  exact ⟨hsize, forall_ascii (P := fun c => capital c = true → plain c = true) (by decide)
    hsize h⟩

/-- What is left of a text in lower case in a word of the dictionary. -/
def lowered (cs : List Char) : List Char := (cs.map Char.toLower).filter plain

/-- What is left of a text in a word of the dictionary when the capital letters are left out. -/
def smalls (cs : List Char) : List Char := cs.filter fun c => plain c && !capital c

/-- For the text without its capital letters the smaller word is no farther. -/
theorem levenshtein_smalls_le (cs : List Char) :
    levenshtein cs (smalls cs) ≤ levenshtein cs (lowered cs) := by
  have hlowered : ∀ c ∈ lowered cs, (!(plain c && !capital c)) = false := by
    intro c hc
    obtain ⟨hmem, hplain⟩ := List.mem_filter.mp hc
    obtain ⟨d, -, rfl⟩ := List.mem_map.mp hmem
    rw [hplain, capital_toLower]
    rfl
  exact Nat.le_trans (levenshtein_le (Alignment.filter _ cs))
    ((levenshtein_alignment cs (lowered cs)).countP_le hlowered)

/-- For the text in lower case the longer word is nearer. -/
theorem levenshtein_lowered_lt {cs : List Char} {c : Char} (hc : c ∈ cs) (hcapital : capital c = true) :
    levenshtein (cs.map Char.toLower) (lowered cs) <
      levenshtein (cs.map Char.toLower) (smalls cs) := by
  have hkept : (lowered cs).length = (cs.filter plain).length := by
    have hplain : plain ∘ Char.toLower = plain := funext plain_toLower
    unfold lowered
    rw [List.filter_map, List.length_map, hplain]
  have hfewer : (smalls cs).length < (cs.filter plain).length := by
    have hsmalls : smalls cs = (cs.filter plain).filter fun c => !capital c := by
      unfold smalls
      rw [List.filter_filter]
      exact List.filter_congr fun c _ => Bool.and_comm _ _
    rw [hsmalls, List.length_filter_lt_length_iff_exists]
    exact ⟨c, List.mem_filter.mpr ⟨hc, (capital_byte hcapital).2⟩, by rw [hcapital]; decide⟩
  have hle := levenshtein_le (Alignment.filter plain (cs.map Char.toLower))
  have hdeleted := List.length_eq_countP_add_countP plain (l := cs.map Char.toLower)
  have hlowered : (lowered cs).length = (cs.map Char.toLower).countP plain :=
    List.countP_eq_length_filter.symm
  have hlength := (levenshtein_alignment (cs.map Char.toLower) (smalls cs)).length_le.1
  simp only [Bool.not_eq_true, Bool.decide_eq_false] at hdeleted
  unfold lowered at *
  omega

/-! ## The replies of a built dictionary -/

/-- Plain characters in lower case are a word of the dictionary. -/
theorem normal_encode {cs : List Char} (hne : cs ≠ [])
    (h : ∀ c ∈ cs, plain c = true ∧ capital c = false) :
    Word (Utf8.encode cs) ∧ Normal (Utf8.encode cs) := by
  have hbyte : ∀ ch ∈ Utf8.encode cs, isspace ch = false ∧ isdigit ch = false ∧ ispunct ch = false ∧
      isupper ch = false := by
    intro ch hch
    obtain ⟨c, hc, hch⟩ := List.mem_flatMap.mp hch
    obtain ⟨hplain, hcapital⟩ := h c hc
    have hclass := List.all_eq_true.mp hplain ch hch
    have hupper := List.any_eq_false.mp hcapital ch hch
    simp only [Bool.and_eq_true, Bool.not_eq_true'] at hclass
    exact ⟨hclass.1.1, hclass.1.2, hclass.2, Bool.eq_false_iff.mpr hupper⟩
  have hencode : Utf8.encode cs ≠ [] := by
    obtain ⟨c, cs, rfl⟩ := List.exists_cons_of_ne_nil hne
    obtain ⟨ch, rest, hc, -⟩ := encodeChar_nBytes c
    rw [Utf8.encode_cons, hc]
    exact List.cons_ne_nil _ _
  exact ⟨⟨hencode, fun ch hch => (hbyte ch hch).1⟩, hencode, fun ch hch => (hbyte ch hch).2⟩

/-- What `doParse` calls, on the tables of a dictionary. -/
def Dictionary.backend (json : Json.Text) (d : Dictionary) (webPage : Str → Except Fault Str) :
    Backend where
  mixed := MixedRecommender.recommender json d.en d.cn
  english := EnRecommender.recommender json d.en
  chinese := ChRecommender.recommender json d.cn
  webPage := webPage

/-- The reply that is packed from what a recommender returned. -/
def packReply (json : Json.Text) (recoResult : Str) : Str :=
  if recoResult = [] then [] else packMsgToJson json (lit "100") recoResult

variable {json : Json.Text}

theorem doParseFields_mixed {b : Backend} {message : Str} (henglish : isPureEnglish message = false)
    (hchinese : isPureChinese message = false) :
    doParseFields json b (lit "1") message =
      b.mixed message >>= fun recoResult => .ok (packReply json recoResult) := by
  unfold doParseFields
  rw [henglish, hchinese]
  rfl

/-- The text that a recommender returns for some words. -/
def keywordsText (json : Json.Text) (items : List Str) : Str :=
  json.dump (listJson (lit "Keywords") items)

theorem parse_keywordsText (hjson : json.Laws) {items : List Str}
    (hvalid : ∀ item ∈ items, Utf8.Valid item) :
    json.parse (keywordsText json items) = .ok (listJson (lit "Keywords") items) := by
  have hignore : items.map Utf8.ignore = items :=
    (List.map_congr_left fun item hitem => (hvalid item hitem).ignore).trans (List.map_id items)
  have hparse := hjson.parse_dump _ (keyed_list (Utf8.valid_lit "Keywords") items)
  simp only [List.map_cons, List.map_nil, Json.Value.ignore, hignore] at hparse
  exact hparse

/-- A reply is read as the words or as a message with their text. -/
theorem parse_packReply (hjson : json.Laws) {items : List Str}
    (hvalid : ∀ item ∈ items, Utf8.Valid item) :
    json.parse (packReply json (keywordsText json items)) = .ok (listJson (lit "Keywords") items) ∨
      json.parse (packReply json (keywordsText json items)) =
        .ok (packJson (lit "100") (keywordsText json items)) := by
  unfold packReply
  split
  · next hempty =>
    rw [← hempty]
    exact .inl (parse_keywordsText hjson hvalid)
  · exact .inr (parse_packMsgToJson hjson (Utf8.valid_lit "100")
      (hjson.dump_valid _ (keyed_list (Utf8.valid_lit "Keywords") items)))

theorem listJson_injective {key : Str} {items items' : List Str}
    (h : listJson key items = listJson key items') : items = items' := by
  unfold listJson at h
  simp only [Json.object.injEq, List.cons.injEq, Prod.mk.injEq, Json.array.injEq, true_and,
    and_true] at h
  exact List.map_injective_iff.mpr (fun _ _ heq => Json.string.inj heq) h

/-- **Different words are different replies.** -/
theorem packReply_injective (hjson : json.Laws) {items items' : List Str}
    (hvalid : ∀ item ∈ items, Utf8.Valid item) (hvalid' : ∀ item ∈ items', Utf8.Valid item)
    (h : packReply json (keywordsText json items) = packReply json (keywordsText json items')) :
    items = items' := by
  have hother : ∀ (items : List Str) (text : Str),
      listJson (lit "Keywords") items ≠ packJson (lit "100") text := by
    intro items text heq
    unfold listJson packJson at heq
    simp at heq
  have hread := parse_packReply hjson hvalid
  have hread' := parse_packReply hjson hvalid'
  rw [h] at hread
  rcases hread with hread | hread
  · rcases hread' with hread' | hread'
    · exact listJson_injective (Except.ok.inj (hread.symm.trans hread'))
    · exact absurd (Except.ok.inj (hread.symm.trans hread')) (hother _ _)
  · rcases hread' with hread' | hread'
    · exact absurd (Except.ok.inj (hread'.symm.trans hread)) (hother _ _)
    · have htext := Except.ok.inj (hread.symm.trans hread')
      unfold packJson at htext
      simp only [Json.object.injEq, List.cons.injEq, Prod.mk.injEq, Json.string.injEq, true_and,
        and_true] at htext
      have hparse := parse_keywordsText hjson hvalid
      rw [htext, parse_keywordsText hjson hvalid'] at hparse
      exact (listJson_injective (Except.ok.inj hparse)).symm

/-- What a recommender returns when its words are ranked. -/
theorem keywords_of_ranking {query : Str} {queryRes : QueryRes} {ranking : List CandidateResult}
    (hne : ranking ≠ []) (hsorted : ranking.Pairwise Before)
    (hmem : ∀ row, row ∈ queryRes ↔ ∃ candi ∈ ranking, (candi.word, candi.freq) = row)
    (hdist : ∀ candi ∈ ranking, editDistance query candi.word = .ok candi.dist) :
    keywords json query queryRes =
      .ok (keywordsText json ((ranking.take 5).map CandidateResult.word)) := by
  refine keywords_eq_ok.mpr (.inr ⟨ranking, hne, hsorted, fun candi => ?_, fun row hrow => ?_, ?_⟩)
  · rw [Std.TreeSet.mem_toList, hmem]
    constructor
    · exact fun hcandi => ⟨⟨candi, hcandi, rfl⟩, hdist candi hcandi⟩
    · rintro ⟨⟨candi', hcandi', heq⟩, hcandi⟩
      obtain ⟨hword, hfreq⟩ := Prod.mk.inj heq
      have hsame : candi'.dist = candi.dist :=
        Except.ok.inj ((hdist candi' hcandi').symm.trans (hword ▸ hcandi))
      obtain ⟨word, freq, dist⟩ := candi
      obtain ⟨word', freq', dist'⟩ := candi'
      subst hword hfreq hsame
      exact hcandi'
  · rw [Std.TreeSet.mem_toList, hmem] at hrow
    obtain ⟨candi, hcandi, rfl⟩ := hrow
    exact ⟨candi.dist, hdist candi hcandi⟩
  · unfold keywordsText listJson
    rw [List.map_map]
    rfl

/-- A word has a character of one byte when it is one of its characters. -/
theorem hasLetter_encode {ds : List Char} {c : Char} :
    HasLetter (Utf8.encode ds) (String.utf8EncodeChar c) ↔ c ∈ ds ∧ c.utf8Size = 1 := by
  have hlength : ∀ c : Char, (String.utf8EncodeChar c).length = c.utf8Size :=
    fun c => String.length_utf8EncodeChar c
  constructor
  · rintro ⟨ch, hch, hc⟩
    have hsize : c.utf8Size = 1 := by
      rw [← hlength, ← hc]
      rfl
    obtain ⟨d, hd, hch⟩ := List.mem_flatMap.mp hch
    refine ⟨?_, hsize⟩
    by_cases hone : d.utf8Size = 1
    · rw [String.utf8EncodeChar_eq_singleton hone] at hch
      obtain rfl := List.mem_singleton.mp hch
      rw [← String.utf8EncodeChar_eq_singleton hone] at hc
      exact Utf8.encodeChar_injective hc ▸ hd
    · have hle := Utf8.le_of_mem_encodeChar hone hch
      obtain ⟨lead, tail, hshape, hlead, -, -⟩ := Utf8.encodeChar_shape c
      rw [hsize] at hlead
      have heq : ch = lead := (List.cons.inj (hc.trans hshape)).1
      exact absurd (heq ▸ hlead : ch < 128) (UInt8.not_lt.mpr hle)
  · rintro ⟨hc, hsize⟩
    have hsingle := String.utf8EncodeChar_eq_singleton hsize
    refine ⟨_, List.mem_flatMap.mpr ⟨c, hc, ?_⟩, hsingle.symm⟩
    rw [hsingle]
    exact List.mem_singleton_self _

/-- The reply for the message is the reply for its text in lower case. -/
def IgnoresCase (json : Json.Text) (b : Backend) (message : Str) : Prop :=
  doParseFields json b (lit "1") message = doParseFields json b (lit "1") (toLower message)

/-! ## Mixed messages -/

section Mixed

variable {cs : List Char}

/-- A message with a letter, and with a character that is no letter and no blank, that can be looked
up. -/
structure Mixed (cs : List Char) : Prop where
  english : isPureEnglish (Utf8.encode cs) = false
  chinese : isPureChinese (Utf8.encode cs) = false
  quotable : AllQuotable (Utf8.encode cs)

theorem Mixed.lower (h : Mixed cs) : Mixed (cs.map Char.toLower) := by
  obtain ⟨henglish, hchinese, hquotable⟩ := h
  constructor
  · rwa [← toLower_encode, isPureEnglish_toLower]
  · rwa [← toLower_encode, isPureChinese_toLower]
  · rwa [← toLower_encode, allQuotable_toLower]

variable {items : List (List Char)}
  (hitems : ∀ item ∈ items, item ≠ [] ∧ ∀ c ∈ item, plain c = true ∧ capital c = false)
include hitems

/-- The words that are looked up for a mixed message: those that have one of its characters. -/
theorem mixedQueryRes_ofWords (h : Mixed cs) :
    ∃ queryRes, mixedQueryRes (Dictionary.ofWords (items.map Utf8.encode)).en
        (Dictionary.ofWords (items.map Utf8.encode)).cn (Utf8.encode cs) = .ok queryRes ∧
      ∀ row, row ∈ queryRes ↔ ∃ item ∈ items, (Utf8.encode item, (items.count item : Int)) = row ∧
        ∃ c ∈ cs, c ∈ item ∧ c.utf8Size = 1 := by
  have hword : ∀ token ∈ items.map Utf8.encode, Word token := by
    intro token htoken
    obtain ⟨item, hitem, rfl⟩ := List.mem_map.mp htoken
    exact (normal_encode (hitems item hitem).1 (hitems item hitem).2).1
  have hnormal : ∀ token ∈ items.map Utf8.encode, Normal token := by
    intro token htoken
    obtain ⟨item, hitem, rfl⟩ := List.mem_map.mp htoken
    exact (normal_encode (hitems item hitem).1 (hitems item hitem).2).2
  have hcount : ∀ item, (items.map Utf8.encode).count (Utf8.encode item) = items.count item :=
    fun item => List.count_map_of_injective items Utf8.encode
      (fun _ _ heq => Utf8.encode_injective heq) item
  obtain ⟨queryRes, hrun, hmem⟩ := cutLookups_ok (fun str h => mixedOne_ok
    (Dictionary.ofWords (items.map Utf8.encode)).en
    (Dictionary.ofWords (items.map Utf8.encode)).cn h) h.quotable
  refine ⟨queryRes, hrun, fun row => ?_⟩
  rw [hmem]
  unfold Looked
  constructor
  · rintro ⟨str, hstr, word, frequency, hjoins, rfl⟩
    obtain ⟨c, hc, rfl⟩ := List.mem_map.mp hstr
    dsimp only at hjoins
    split at hjoins
    · obtain ⟨hword', rfl, hletter⟩ := (Dictionary.joins_ofWords hword hnormal).mp hjoins
      obtain ⟨item, hitem, rfl⟩ := List.mem_map.mp hword'
      rw [hcount]
      exact ⟨item, hitem, rfl, c, hc, hasLetter_encode.mp hletter⟩
    · exact absurd hjoins (Dictionary.not_joins_cn _)
  · rintro ⟨item, hitem, rfl, c, hc, hin, hsize⟩
    refine ⟨_, List.mem_map_of_mem hc, Utf8.encode item, items.count item, ?_, rfl⟩
    dsimp only
    rw [if_pos (by rw [String.length_utf8EncodeChar, hsize])]
    exact (Dictionary.joins_ofWords hword hnormal).mpr
      ⟨List.mem_map_of_mem hitem, (hcount item).symm, hasLetter_encode.mpr ⟨hin, hsize⟩⟩

/-- The reply when no word has a character of the message. -/
theorem doParseFields_of_none (h : Mixed cs) (webPage : Str → Except Fault Str)
    (hnone : ∀ item ∈ items, ∀ c ∈ cs, c ∉ item) :
    doParseFields json ((Dictionary.ofWords (items.map Utf8.encode)).backend json webPage) (lit "1")
      (Utf8.encode cs) = .ok [] := by
  obtain ⟨queryRes, hquery, hrows⟩ := mixedQueryRes_ofWords hitems h
  have hempty : queryRes.toList = [] := by
    refine List.eq_nil_iff_forall_not_mem.mpr fun row hrow => ?_
    obtain ⟨item, hitem, -, c, hc, hin, -⟩ := (hrows row).mp (Std.TreeSet.mem_toList.mp hrow)
    exact hnone item hitem c hc hin
  have hreply : ((Dictionary.ofWords (items.map Utf8.encode)).backend json webPage).mixed
      (Utf8.encode cs) = .ok [] := by
    show MixedRecommender.recommender json _ _ _ = _
    unfold MixedRecommender.recommender
    rw [hquery, Except.ok_bind]
    exact keywords_eq_ok.mpr (.inl ⟨hempty, rfl⟩)
  rw [doParseFields_mixed h.english h.chinese, hreply]
  rfl

/-- A word with its frequency and its distance from the message. -/
noncomputable def candidate (items : List (List Char)) (cs item : List Char) : CandidateResult :=
  ⟨Utf8.encode item, items.count item, levenshtein cs item⟩

/-- The reply when each word has a letter of the message, and the words are ranked. -/
theorem doParseFields_of_ranking (h : Mixed cs) (webPage : Str → Except Fault Str)
    {ranked : List (List Char)} (hne : ranked ≠ []) (hsame : ∀ item, item ∈ ranked ↔ item ∈ items)
    (hsorted : (ranked.map (candidate items cs)).Pairwise Before)
    (hletter : ∀ item ∈ items, ∃ c ∈ cs, c ∈ item ∧ c.utf8Size = 1) :
    doParseFields json ((Dictionary.ofWords (items.map Utf8.encode)).backend json webPage) (lit "1")
      (Utf8.encode cs) = .ok (packReply json (keywordsText json ((ranked.take 5).map Utf8.encode))) := by
  obtain ⟨queryRes, hquery, hrows⟩ := mixedQueryRes_ofWords hitems h
  have hmem : ∀ row, row ∈ queryRes ↔
      ∃ candi ∈ ranked.map (candidate items cs), (candi.word, candi.freq) = row := by
    intro row
    rw [hrows]
    constructor
    · rintro ⟨item, hitem, rfl, -⟩
      exact ⟨_, List.mem_map_of_mem ((hsame item).mpr hitem), rfl⟩
    · rintro ⟨candi, hcandi, rfl⟩
      obtain ⟨item, hitem, rfl⟩ := List.mem_map.mp hcandi
      have hitem' := (hsame item).mp hitem
      exact ⟨item, hitem', rfl, hletter item hitem'⟩
  have hdist : ∀ candi ∈ ranked.map (candidate items cs),
      editDistance (Utf8.encode cs) candi.word = .ok candi.dist := by
    intro candi hcandi
    obtain ⟨item, -, rfl⟩ := List.mem_map.mp hcandi
    exact editDistance_encode cs item
  have hreply : ((Dictionary.ofWords (items.map Utf8.encode)).backend json webPage).mixed
      (Utf8.encode cs) = .ok (keywordsText json ((ranked.take 5).map Utf8.encode)) := by
    show MixedRecommender.recommender json _ _ _ = _
    unfold MixedRecommender.recommender
    rw [hquery, Except.ok_bind, keywords_of_ranking (by simpa using hne) hsorted hmem hdist,
      ← List.map_take, List.map_map]
    rfl
  rw [doParseFields_mixed h.english h.chinese, hreply]
  rfl

end Mixed

/-! ## A message with a capital letter -/

section Capital

variable {cs : List Char} {c : Char}

/-- A capital letter whose small letter is not in the message: words of the small letter are found in
lower case only. -/
theorem small_unseen (hjson : json.Laws) (h : Mixed cs) (webPage : Str → Except Fault Str)
    (hc : c ∈ cs) (hcapital : capital c = true) (hsmall : c.toLower ∉ cs) :
    ∃ d : Dictionary, ¬ IgnoresCase json (d.backend json webPage) (Utf8.encode cs) := by
  by_contra hall
  rw [not_exists_not] at hall
  obtain ⟨hsize, hplain⟩ := capital_byte hcapital
  have hlower : c.toLower.utf8Size = 1 := (utf8Size_toLower c).trans hsize
  have hempty : ∀ k, packReply json
      (keywordsText json [Utf8.encode (List.replicate (k + 1) c.toLower)]) = [] := by
    intro k
    have hitems : ∀ item ∈ [List.replicate (k + 1) c.toLower],
        item ≠ [] ∧ ∀ d ∈ item, plain d = true ∧ capital d = false := by
      intro item hitem
      rw [List.mem_singleton.mp hitem]
      refine ⟨List.cons_ne_nil _ _, fun d hd => ?_⟩
      rw [List.eq_of_mem_replicate hd, plain_toLower]
      exact ⟨hplain, capital_toLower c⟩
    have hunseen : ∀ item ∈ [List.replicate (k + 1) c.toLower], ∀ d ∈ cs, d ∉ item := by
      intro item hitem d hd hin
      rw [List.mem_singleton.mp hitem] at hin
      rw [List.eq_of_mem_replicate hin] at hd
      exact hsmall hd
    have hseen : ∀ item ∈ [List.replicate (k + 1) c.toLower],
        ∃ d ∈ cs.map Char.toLower, d ∈ item ∧ d.utf8Size = 1 := by
      intro item hitem
      rw [List.mem_singleton.mp hitem]
      exact ⟨c.toLower, List.mem_map_of_mem hc, List.mem_cons_self, hlower⟩
    have hfound := @doParseFields_of_ranking json _ _ hitems h.lower webPage
      [List.replicate (k + 1) c.toLower] (List.cons_ne_nil _ _) (fun _ => Iff.rfl)
      (List.pairwise_singleton _ _) hseen
    have hsame := hall (Dictionary.ofWords ([List.replicate (k + 1) c.toLower].map Utf8.encode))
    unfold IgnoresCase at hsame
    rw [toLower_encode, doParseFields_of_none hitems h webPage hunseen, hfound] at hsame
    exact (Except.ok.inj hsame).symm
  have hvalid : ∀ k, ∀ item ∈ [Utf8.encode (List.replicate (k + 1) c.toLower)], Utf8.Valid item := by
    intro k item hitem
    exact ⟨_, (List.mem_singleton.mp hitem).symm⟩
  have heq := packReply_injective hjson (hvalid 0) (hvalid 1) ((hempty 0).trans (hempty 1).symm)
  have hlength := congrArg List.length (Utf8.encode_injective (List.head_eq_of_cons_eq heq))
  simp at hlength

theorem mem_lowered {d : Char} (hd : d ∈ lowered cs) : plain d = true ∧ capital d = false := by
  obtain ⟨hmem, hplain⟩ := List.mem_filter.mp hd
  obtain ⟨e, -, rfl⟩ := List.mem_map.mp hmem
  exact ⟨hplain, capital_toLower e⟩

theorem mem_smalls {d : Char} (hd : d ∈ smalls cs) : plain d = true ∧ capital d = false := by
  simpa using (List.mem_filter.mp hd).2

/-- A capital letter whose small letter is in the message: the words with and without what the capital
letters become change places. -/
theorem words_change_places (hjson : json.Laws) (h : Mixed cs) (webPage : Str → Except Fault Str)
    (hc : c ∈ cs) (hcapital : capital c = true) (hsmall : c.toLower ∈ cs) :
    ¬ IgnoresCase json ((Dictionary.ofWords ([smalls cs, smalls cs, lowered cs].map
      Utf8.encode)).backend json webPage) (Utf8.encode cs) := by
  obtain ⟨hsize, hplain⟩ := capital_byte hcapital
  have hlower : c.toLower.utf8Size = 1 := (utf8Size_toLower c).trans hsize
  have hin : c.toLower ∈ cs.map Char.toLower := List.mem_map_of_mem hc
  have hlowered : c.toLower ∈ lowered cs := List.mem_filter.mpr ⟨hin, (plain_toLower c).trans hplain⟩
  have hsmalls : c.toLower ∈ smalls cs := by
    refine List.mem_filter.mpr ⟨hsmall, ?_⟩
    rw [plain_toLower, hplain, capital_toLower]
    rfl
  have hnearer := levenshtein_lowered_lt hc hcapital
  have hne : smalls cs ≠ lowered cs := by
    intro heq
    rw [heq] at hnearer
    exact Nat.lt_irrefl _ hnearer
  -- the smaller word is the more frequent one
  have htwice : [smalls cs, smalls cs, lowered cs].count (smalls cs) = 2 := by
    simp [hne.symm]
  have honce : [smalls cs, smalls cs, lowered cs].count (lowered cs) = 1 := by
    simp [hne]
  have hitems : ∀ item ∈ [smalls cs, smalls cs, lowered cs],
      item ≠ [] ∧ ∀ d ∈ item, plain d = true ∧ capital d = false := by
    intro item hitem
    have hcases : item = smalls cs ∨ item = lowered cs := by simpa using hitem
    rcases hcases with rfl | rfl
    · exact ⟨List.ne_nil_of_mem hsmalls, fun d hd => mem_smalls hd⟩
    · exact ⟨List.ne_nil_of_mem hlowered, fun d hd => mem_lowered hd⟩
  have hletter : ∀ ds : List Char, c.toLower ∈ ds → ∀ item ∈ [smalls cs, smalls cs, lowered cs],
      ∃ d ∈ ds, d ∈ item ∧ d.utf8Size = 1 := by
    intro ds hds item hitem
    have hcases : item = smalls cs ∨ item = lowered cs := by simpa using hitem
    rcases hcases with rfl | rfl
    · exact ⟨c.toLower, hds, hsmalls, hlower⟩
    · exact ⟨c.toLower, hds, hlowered, hlower⟩
  have hfirst : Before (candidate [smalls cs, smalls cs, lowered cs] cs (smalls cs))
      (candidate [smalls cs, smalls cs, lowered cs] cs (lowered cs)) := by
    unfold candidate
    rw [htwice, honce]
    rcases Nat.lt_or_eq_of_le (levenshtein_smalls_le cs) with hlt | heq
    · exact .inl hlt
    · refine .inr ⟨heq, .inl ?_⟩
      show ((1 : Nat) : Int) < ((2 : Nat) : Int)
      decide
  have hother : Before (candidate [smalls cs, smalls cs, lowered cs] (cs.map Char.toLower) (lowered cs))
      (candidate [smalls cs, smalls cs, lowered cs] (cs.map Char.toLower) (smalls cs)) := .inl hnearer
  have hraw := @doParseFields_of_ranking json _ _ hitems h webPage
    [smalls cs, lowered cs] (List.cons_ne_nil _ _) (by simp) (List.pairwise_pair.mpr hfirst)
    (hletter cs hsmall)
  have hcase := @doParseFields_of_ranking json _ _ hitems h.lower webPage
    [lowered cs, smalls cs] (List.cons_ne_nil _ _) (by simp [or_comm]) (List.pairwise_pair.mpr hother)
    (hletter _ hin)
  intro hsame
  unfold IgnoresCase at hsame
  rw [toLower_encode, hraw, hcase] at hsame
  have hvalid : ∀ ranked : List (List Char), ∀ item ∈ ranked.map Utf8.encode, Utf8.Valid item := by
    intro ranked item hitem
    obtain ⟨ds, -, rfl⟩ := List.mem_map.mp hitem
    exact ⟨ds, rfl⟩
  have hwords := packReply_injective hjson (hvalid _) (hvalid _) (Except.ok.inj hsame)
  exact hne (Utf8.encode_injective (List.head_eq_of_cons_eq hwords))

end Capital

/-! ## Which messages ignore case -/

/-- The lookups of a text end by a null pointer or not at all. -/
theorem mixedOne_cases (en cn : DictTables) (c : Char) (queryRes : QueryRes) :
    (∃ queryRes', mixedOne en cn queryRes (String.utf8EncodeChar c) = .ok queryRes') ∨
      mixedOne en cn queryRes (String.utf8EncodeChar c) = .error .nullPointer := by
  by_cases hquotable : AllQuotable (String.utf8EncodeChar c)
  · obtain ⟨queryRes', hok, -⟩ := mixedOne_ok en cn hquotable queryRes
    exact .inl ⟨queryRes', hok⟩
  · by_cases hsize : c.utf8Size = 1
    · rw [String.utf8EncodeChar_eq_singleton hsize] at hquotable ⊢
      unfold AllQuotable at hquotable
      rw [List.forall_mem_singleton] at hquotable
      exact .inr (gatherOne_not_quotable en enSelect_wellFormed queryRes hquotable)
    · exact absurd (fun ch hch => quotable_of_not_ascii (Utf8.le_of_mem_encodeChar hsize hch)) hquotable

/-- A message with a character that cannot stand between quotes ends the server. -/
theorem mixed_not_quotable (en cn : DictTables) {cs : List Char}
    (hquotable : ¬ AllQuotable (Utf8.encode cs)) :
    MixedRecommender.recommender json en cn (Utf8.encode cs) = .error .nullPointer := by
  have hfail : ∀ queryRes ch, ¬ Quotable ch → mixedOne en cn queryRes [ch] = .error .nullPointer :=
    fun queryRes ch => gatherOne_not_quotable en enSelect_wellFormed queryRes
  obtain ⟨singleChars, hcut, hchars⟩ := cutString_encode cs
  have hquery : mixedQueryRes en cn (Utf8.encode cs) = .error .nullPointer := by
    cases hrun : mixedQueryRes en cn (Utf8.encode cs) with
    | ok queryRes => exact absurd (quotable_of_cutLookups hfail hrun) hquotable
    | error fault =>
      by_contra hother
      unfold mixedQueryRes at hrun
      rw [hcut, Except.ok_bind] at hrun
      refine run_ne_error (fun _ => True) (fun _ _ _ _ _ _ => trivial) ?_ trivial
        (meets_of_forall fun str hstr => (hchars str).mp hstr) hrun
      rintro queryRes str - ⟨c, -, rfl⟩ heq
      rcases mixedOne_cases en cn c queryRes with ⟨queryRes', hok⟩ | hnull
      · cases hok.symm.trans heq
      · exact hother (heq.symm.trans hnull)
  unfold MixedRecommender.recommender
  rw [hquery]
  rfl

/-- A text without letters has no capital letters. -/
theorem not_isupper_of_isPureChinese {str : Str} (h : isPureChinese str = true) :
    ∀ ch ∈ str, isupper ch = false := by
  intro ch hch
  have halpha := List.all_eq_true.mp h ch hch
  unfold isalpha at halpha
  simp only [Bool.not_or, Bool.and_eq_true, Bool.not_eq_true'] at halpha
  exact halpha.1

theorem ignoresCase_of_english {b : Backend} {message : Str}
    (h : isPureEnglish message = true) : IgnoresCase json b message := by
  unfold IgnoresCase doParseFields
  rw [isPureEnglish_toLower, h, toLower_toLower]
  rfl

theorem ignoresCase_of_not_isupper {b : Backend} {message : Str}
    (h : ∀ ch ∈ message, isupper ch = false) : IgnoresCase json b message := by
  unfold IgnoresCase
  rw [toLower_of_not_isupper h]

/-- Both requests end the server. -/
theorem ignoresCase_of_not_quotable (d : Dictionary) (webPage : Str → Except Fault Str)
    {cs : List Char} (henglish : isPureEnglish (Utf8.encode cs) = false)
    (hchinese : isPureChinese (Utf8.encode cs) = false) (hquotable : ¬ AllQuotable (Utf8.encode cs)) :
    IgnoresCase json (d.backend json webPage) (Utf8.encode cs) := by
  have hlower : ¬ AllQuotable (Utf8.encode (cs.map Char.toLower)) := by
    rwa [← toLower_encode, allQuotable_toLower]
  have hraw : (d.backend json webPage).mixed (Utf8.encode cs) = .error .nullPointer :=
    mixed_not_quotable d.en d.cn hquotable
  have hcase : (d.backend json webPage).mixed (toLower (Utf8.encode cs)) = .error .nullPointer := by
    rw [toLower_encode]
    exact mixed_not_quotable d.en d.cn hlower
  unfold IgnoresCase
  rw [doParseFields_mixed henglish hchinese, hraw,
    doParseFields_mixed (by rwa [isPureEnglish_toLower]) (by rwa [isPureChinese_toLower]), hcase]

/-- **Which messages ignore case**: those of letters and blanks alone, those without a capital letter,
and those that end the server either way. -/
theorem ignoresCase_iff (hjson : json.Laws) (webPage : Str → Except Fault Str) (cs : List Char) :
    (∀ d : Dictionary, IgnoresCase json (d.backend json webPage) (Utf8.encode cs)) ↔
      isPureEnglish (Utf8.encode cs) = true ∨ (∀ ch ∈ Utf8.encode cs, isupper ch = false) ∨
        ¬ AllQuotable (Utf8.encode cs) := by
  constructor
  · intro hall
    by_contra hnone
    simp only [not_or, Decidable.not_not] at hnone
    obtain ⟨henglish, hupper, hquotable⟩ := hnone
    have hmixed : Mixed cs := by
      refine ⟨Bool.eq_false_iff.mpr henglish, Bool.eq_false_iff.mpr fun hchinese => ?_, hquotable⟩
      exact hupper (not_isupper_of_isPureChinese hchinese)
    obtain ⟨c, hc, hcapital⟩ : ∃ c ∈ cs, capital c = true := by
      simp only [not_forall, Bool.not_eq_false] at hupper
      obtain ⟨ch, hch, hupper⟩ := hupper
      obtain ⟨c, hc, hch⟩ := List.mem_flatMap.mp hch
      exact ⟨c, hc, List.any_eq_true.mpr ⟨ch, hch, hupper⟩⟩
    obtain ⟨d, hd⟩ : ∃ d : Dictionary, ¬ IgnoresCase json (d.backend json webPage) (Utf8.encode cs) := by
      by_cases hsmall : c.toLower ∈ cs
      · exact ⟨_, words_change_places hjson hmixed webPage hc hcapital hsmall⟩
      · exact small_unseen hjson hmixed webPage hc hcapital hsmall
    exact hd (hall d)
  · rintro hcases d
    rcases hcases with henglish | hupper | hquotable
    · exact ignoresCase_of_english henglish
    · exact ignoresCase_of_not_isupper hupper
    · by_cases henglish : isPureEnglish (Utf8.encode cs) = true
      · exact ignoresCase_of_english henglish
      · by_cases hchinese : isPureChinese (Utf8.encode cs) = true
        · exact ignoresCase_of_not_isupper (not_isupper_of_isPureChinese hchinese)
        · exact ignoresCase_of_not_quotable d webPage (Bool.eq_false_iff.mpr henglish)
            (Bool.eq_false_iff.mpr hchinese) hquotable

/-- A message of letters and blanks, for the dictionary of one word. -/
theorem ignoresCase_iff_hello :
    IgnoresCase Json.compact
      ((Dictionary.ofWords [lit "hello"]).backend Json.compact fun _ => .ok [])
      (Utf8.encode ['H', 'e', 'l', 'l', 'o', ' ', 'X']) :=
  (ignoresCase_iff Json.compact_laws (fun _ => .ok []) ['H', 'e', 'l', 'l', 'o', ' ', 'X']).mpr
    (.inl (by decide)) (Dictionary.ofWords [lit "hello"])

/-- An article with `a` twice and `aa` once: for `aA1` the first word is `a`, and for `aa1` it is
`aa`. -/
theorem not_ignoresCase_capital :
    ¬ IgnoresCase Json.compact
      ((Dictionary.ofWords [lit "a", lit "a", lit "aa"]).backend Json.compact fun _ => .ok [])
      (lit "aA1") := by
  have hmixed : Mixed ['a', 'A', '1'] := by
    constructor
    · decide
    · decide
    · decide
  have hsmalls : smalls ['a', 'A', '1'] = ['a'] := by decide
  have hlowered : lowered ['a', 'A', '1'] = ['a', 'a'] := by decide
  have hcapital : 'A' ∈ ['a', 'A', '1'] := List.mem_cons_of_mem _ List.mem_cons_self
  have hplaces := words_change_places Json.compact_laws hmixed (fun _ => .ok []) hcapital
    (by decide) (by decide)
  rw [hsmalls, hlowered] at hplaces
  exact hplaces

end LightSearch
