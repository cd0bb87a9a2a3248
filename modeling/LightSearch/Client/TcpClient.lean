import LightSearch.Client.Pager
import LightSearch.Client.ProtocolParser
import LightSearch.Lib.Cin

/-!
# The command loop of the client

`start` asks for a mode in a menu and then reads line after line at the prompt of that mode, where a
line is a command or a request. A reply with more than five pages opens the pager, which reads keys
from the same input.

Two things go wrong. The `0` of the menu leads back to the menu; and the loops at the prompts never
look at the state of the input, so that at its end they go round for ever, with the last line again
and again. `conforms_iff` says that nothing else does: the client does what its menu promises exactly
when the first `0` is entered at a prompt for keywords or pages.

The menu speaks of lines, and the client reads a stream: `session` says what each of the lines means,
and `follow` that the client follows it.
-/

set_option autoImplicit false

namespace LightSearch

open Cxx Posix

/-! ## The client -/

/-- What the prompt is for. -/
inductive Mode where
  | keyword
  | web
  deriving DecidableEq

/-- The id of a request. -/
def Mode.id : Mode → Str
  | .keyword => lit "1"
  | .web => lit "2"

/-- The pages of what is shown. -/
def Shown.pages : Shown → List Str
  | .webpages pages => pages
  | _ => []

/-- The server, as the client sees it: what it replies to the last request, after those before. Its
replies can be read, and as a message has an `int` as its length, no list in one is longer. -/
structure Peer where
  json : Json.Text
  reply : List Str → Str
  shown : List Str → Shown
  readable : ∀ sent, handleMessage json (reply sent) = .ok (shown sent)
  fits : ∀ sent, (shown sent).pages.length < 2 ^ 31

/-- Where `start` is when it reads. -/
inductive TcpClient.Place where
  | menu
  | search (mode : Mode)
  | paging (mode : Mode) (pages : List Str) (pager : Pager)
  | returned

/-- `start` between two reads: `str`, the standard input, and what was sent. -/
structure TcpClient where
  place : TcpClient.Place
  cin : Cin
  str : Str
  sent : List Str

namespace TcpClient

def validInteger (num : Int) : Bool := num = 1 ∨ num = 2 ∨ num = 0

def validChar (ch : UInt8) : Bool := ch = Pager.back ∨ ch = Pager.forward ∨ ch = Pager.quit

/-- Each round of the loop reads a line, so that there are no more than there are bytes. -/
def readInteger (cin : Cin) (num : Int) : Cin × Int :=
  cin.readUntil Cin.scanInt validInteger (cin.rest.length + 1) num

def readChar (cin : Cin) (ch : UInt8) : Cin × UInt8 :=
  cin.readUntil Cin.scanChar validChar (cin.rest.length + 1) ch

/-- `str.erase(remove_if(…, isspace), …)`. -/
def strip (str : Str) : Str := str.filter fun ch => !isspace ch

/-- From one read to the next. `messageId` and `ch` have no value before they are read; the junk is
what is found there. -/
def step (peer : Peer) (s : TcpClient) (junk : Int × UInt8) : Except Fault TcpClient :=
  match s.place with
  | .menu =>
    let (cin, messageId) := readInteger s.cin junk.1
    if messageId = 1 then .ok { s with cin := cin, place := .search .keyword }
    else if messageId = 2 then .ok { s with cin := cin, place := .search .web }
    else .ok { s with cin := cin }
  | .search mode =>
    let (cin, line) := s.cin.getline s.str
    let str := strip line
    if str = [] then .ok { s with cin := cin, str := str }
    else if str = lit "0" then .ok { s with cin := cin, str := str, place := .returned }
    else if str = lit "1" then .ok { s with cin := cin, str := str, place := .search .keyword }
    else if str = lit "2" then .ok { s with cin := cin, str := str, place := .search .web }
    else do
      let sent := s.sent ++ [packMsgToJson peer.json mode.id str]
      let shown ← handleMessage peer.json (peer.reply sent)
      if shown.pages.length ≤ 5 then .ok { s with cin := cin, str := str, sent := sent }
      else do
        let pager ← Pager.start shown.pages
        .ok ⟨.paging mode shown.pages pager, cin, str, sent⟩
  | .paging mode pages pager =>
    let (cin, select) := readChar s.cin junk.2
    if select = Pager.quit then .ok { s with cin := cin, place := .search mode }
    else do
      let pager ← pager.press pages select
      .ok { s with cin := cin, place := .paging mode pages pager }
  | .returned => .ok s

/-- `start`, before it reads. -/
def start (input : Str) : TcpClient := ⟨.menu, ⟨input, false, false⟩, [], []⟩

/-! ## The session on the lines -/

/-- A prompt. -/
inductive Prompt where
  | menu
  | search (mode : Mode)
  | paging (mode : Mode)

/-- How a session ends. -/
inductive Ending where
  | quitAtMenu
  | quitAtPrompt
  | endOfInput
  deriving DecidableEq

/-- What a session comes to: the requests, how it ends, and the lines that are left. -/
structure Session where
  sent : List Str
  ending : Ending
  left : List Str

/-- The prompt and the requests behind a line, or how it ends the session. -/
def enter (peer : Peer) (prompt : Prompt) (sent : List Str) (line : Str) :
    Except Ending (Prompt × List Str) :=
  match prompt with
  | .menu =>
    match Cin.choice Cin.scanInt validInteger line with
    | none => .ok (.menu, sent)
    | some num =>
      if num = 1 then .ok (.search .keyword, sent)
      else if num = 2 then .ok (.search .web, sent)
      else .error .quitAtMenu
  | .search mode =>
    if strip line = [] then .ok (.search mode, sent)
    else if strip line = lit "0" then .error .quitAtPrompt
    else if strip line = lit "1" then .ok (.search .keyword, sent)
    else if strip line = lit "2" then .ok (.search .web, sent)
    else
      let sent := sent ++ [packMsgToJson peer.json mode.id (strip line)]
      .ok (if (peer.shown sent).pages.length ≤ 5 then .search mode else .paging mode, sent)
  | .paging mode =>
    .ok (if Cin.choice Cin.scanChar validChar line = some Pager.quit then .search mode
      else .paging mode, sent)

/-- The session that the lines are. -/
def session (peer : Peer) (prompt : Prompt) (sent : List Str) : List Str → Session
  | [] => ⟨sent, .endOfInput, []⟩
  | line :: lines =>
    match enter peer prompt sent line with
    | .error ending => ⟨sent, ending, lines⟩
    | .ok (prompt, sent) => session peer prompt sent lines

/-- So many steps, where the junk is what is found from step to step. -/
def steps (peer : Peer) (s : TcpClient) (junk : Nat → Int × UInt8) (n : Nat) :
    Except Fault TcpClient :=
  Run.run (step peer) s ((List.range n).map junk)

/-- The client does what its menu promises: whatever is found in the variables that have no value, it
returns when the session ends, with the requests of the session sent and its lines read. -/
def Conforms (peer : Peer) (input : Str) : Prop :=
  ∀ junk, ∃ n s, steps peer (start input) junk n = .ok s ∧ s.place = .returned ∧
    s.sent = (session peer .menu [] (getlines input)).sent ∧
    getlines s.cin.rest = (session peer .menu [] (getlines input)).left

/-! ## Lines that say nothing -/

variable {peer : Peer}

/-- The menu asks until it has a number of its own. -/
theorem session_menu (sent : List Str) (lines : List Str) :
    session peer .menu sent lines =
      match Cin.firstChoice (Cin.choice Cin.scanInt validInteger) lines with
      | none => ⟨sent, .endOfInput, []⟩
      | some (num, more) =>
        if num = 1 then session peer (.search .keyword) sent more
        else if num = 2 then session peer (.search .web) sent more
        else ⟨sent, .quitAtMenu, more⟩ := by
  induction lines with
  | nil => rfl
  | cons line lines ih =>
    rw [session, enter, Cin.firstChoice]
    cases Cin.choice Cin.scanInt validInteger line with
    | none => exact ih
    | some num =>
      dsimp only
      by_cases hkeyword : num = 1
      · rw [if_pos hkeyword, if_pos hkeyword]
      · rw [if_neg hkeyword, if_neg hkeyword]
        by_cases hweb : num = 2
        · rw [if_pos hweb, if_pos hweb]
        · rw [if_neg hweb, if_neg hweb]

/-- The pager reads a key after the other. -/
theorem session_paging (mode : Mode) (sent : List Str) (lines : List Str) :
    session peer (.paging mode) sent lines =
      match Cin.firstChoice (Cin.choice Cin.scanChar validChar) lines with
      | none => ⟨sent, .endOfInput, []⟩
      | some (ch, more) =>
        session peer (if ch = Pager.quit then .search mode else .paging mode) sent more := by
  induction lines with
  | nil => rfl
  | cons line lines ih =>
    rw [session, enter, Cin.firstChoice]
    cases Cin.choice Cin.scanChar validChar line with
    | none =>
      rw [if_neg (by simp)]
      exact ih
    | some ch =>
      simp only [Option.some.injEq]

theorem turns_of_validChar {ch : UInt8} (hvalid : validChar ch = true) (hquit : ch ≠ Pager.quit) :
    Pager.Turns ch := by
  rcases of_decide_eq_true hvalid with h | h | h
  · exact .inl h
  · exact .inr h
  · exact absurd h hquit

/-! ## Past the session -/

/-- At a prompt for keywords or pages the client returns when it has read the command for it. -/
theorem step_search {s s' : TcpClient} {mode : Mode} {junk : Int × UInt8}
    (hplace : s.place = .search mode) (hstep : step peer s junk = .ok s') :
    s'.cin = (s.cin.getline s.str).1 ∧ s'.str = strip (s.cin.getline s.str).2 ∧
      (s'.place = .returned ↔ strip (s.cin.getline s.str).2 = lit "0") := by
  have hempty : ([] : Str) ≠ lit "0" := by decide
  unfold step at hstep
  simp only [hplace] at hstep
  split at hstep
  · next hstr =>
    obtain rfl := Except.ok.inj hstep
    exact ⟨rfl, rfl, (by simp), fun h => absurd (hstr.symm.trans h) hempty⟩
  · split at hstep
    · next hstr =>
      obtain rfl := Except.ok.inj hstep
      exact ⟨rfl, rfl, fun _ => hstr, fun _ => rfl⟩
    · next hquit =>
      split at hstep
      · obtain rfl := Except.ok.inj hstep
        exact ⟨rfl, rfl, (by simp), fun h => absurd h hquit⟩
      · split at hstep
        · obtain rfl := Except.ok.inj hstep
          exact ⟨rfl, rfl, (by simp), fun h => absurd h hquit⟩
        · rw [peer.readable, Except.ok_bind] at hstep
          split at hstep
          · obtain rfl := Except.ok.inj hstep
            exact ⟨rfl, rfl, (by simp), fun h => absurd h hquit⟩
          · obtain ⟨pager, -, h⟩ := Except.bind_eq_ok.mp hstep
            obtain rfl := Except.ok.inj h
            exact ⟨rfl, rfl, (by simp), fun h => absurd h hquit⟩

theorem strip_strip (str : Str) : strip (strip str) = strip str := by
  unfold strip
  rw [List.filter_filter]
  simp only [Bool.and_self]

/-- The client can only return when it has read one of `k` lines; what is in `str` does not stop it. -/
inductive Beyond (k : Nat) (s : TcpClient) : Prop where
  | returned {lines : List Str} (hplace : s.place = .returned) (hcin : s.cin.After lines)
      (hless : lines.length < k)
  | going {lines : List Str} (hplace : s.place ≠ .returned) (hcin : s.cin.After lines)
      (hle : lines.length ≤ k) (hstr : strip s.str ≠ lit "0")

/-- What is entered keeps the client past the session. -/
theorem Beyond.step {k : Nat} {s s' : TcpClient} {junk : Int × UInt8} (hs : Beyond k s)
    (hstep : step peer s junk = .ok s') : Beyond k s' := by
  cases hs with
  | returned hplace hcin hless =>
    unfold TcpClient.step at hstep
    rw [hplace] at hstep
    obtain rfl := Except.ok.inj hstep
    exact .returned hplace hcin hless
  | @going lines hopen hcin hle hstr =>
    cases hplace : s.place with
    | menu =>
      obtain ⟨more, hmore, hless⟩ := Cin.readUntil_le Cin.local_scanInt validInteger hcin junk.1
      have hmore' : more.length ≤ k := Nat.le_trans hless hle
      unfold TcpClient.step at hstep
      simp only [hplace] at hstep
      split at hstep
      · obtain rfl := Except.ok.inj hstep
        exact .going (by simp) hmore hmore' hstr
      · split at hstep
        · obtain rfl := Except.ok.inj hstep
          exact .going (by simp) hmore hmore' hstr
        · obtain rfl := Except.ok.inj hstep
          exact .going (by simp) hmore hmore' hstr
    | search mode =>
      obtain ⟨hcin', hstr', hreturned⟩ := step_search hplace hstep
      cases lines with
      | nil =>
        obtain ⟨hend, hline⟩ := Cin.getline_end hcin s.str
        have hline' : strip (s.cin.getline s.str).2 ≠ lit "0" := by
          rcases hline with h | h
          · rw [h]
            decide
          · rw [h]
            exact hstr
        refine .going (fun h => hline' (hreturned.mp h)) (hcin' ▸ hend) hle ?_
        rw [hstr', strip_strip]
        exact hline'
      | cons line lines =>
        obtain ⟨hmore, -⟩ := Cin.getline_after hcin s.str
        have hless : lines.length < k := hle
        by_cases hquit : strip (s.cin.getline s.str).2 = lit "0"
        · exact .returned (hreturned.mpr hquit) (hcin' ▸ hmore) hless
        · refine .going (fun h => hquit (hreturned.mp h)) (hcin' ▸ hmore) (Nat.le_of_lt hless) ?_
          rw [hstr', strip_strip]
          exact hquit
    | paging mode pages pager =>
      obtain ⟨more, hmore, hless⟩ := Cin.readUntil_le Cin.local_scanChar validChar hcin junk.2
      have hmore' : more.length ≤ k := Nat.le_trans hless hle
      unfold TcpClient.step at hstep
      simp only [hplace] at hstep
      split at hstep
      · obtain rfl := Except.ok.inj hstep
        exact .going (by simp) hmore hmore' hstr
      · obtain ⟨pager, -, h⟩ := Except.bind_eq_ok.mp hstep
        obtain rfl := Except.ok.inj h
        exact .going (by simp) hmore hmore' hstr
    | returned => exact absurd hplace hopen

theorem Beyond.run {k : Nat} {s s' : TcpClient} {junks : List (Int × UInt8)} (hs : Beyond k s)
    (hrun : Run.run (TcpClient.step peer) s junks = .ok s') : Beyond k s' :=
  Run.run_keeps (Beyond k) (fun _ _ _ hs hstep => hs.step hstep) hs hrun

/-- **Past the session the client does not come to its end.** -/
theorem Beyond.not_returned {k : Nat} {s : TcpClient} (hs : Beyond k s)
    (hplace : s.place = .returned) {left : List Str} (hleft : left.length = k) :
    getlines s.cin.rest ≠ left := by
  cases hs with
  | returned _ hcin hless =>
    rw [hcin.getlines_rest]
    rintro rfl
    exact Nat.lt_irrefl _ (hleft ▸ hless)
  | going hopen _ _ _ => exact absurd hplace hopen

/-! ## The client follows the session -/

/-- The place for a prompt; in the pager it is on a screen of many pages. -/
inductive Place.At : Place → Prompt → Prop where
  | menu : At .menu .menu
  | search (mode : Mode) : At (.search mode) (.search mode)
  | paging (mode : Mode) {pages : List Str} {pager : Pager} (hmany : 5 < pages.length)
      (hint : pages.length < 2 ^ 31) (hscreen : pager.OnScreen pages) :
      At (.paging mode pages pager) (.paging mode)

/-- The client is where the session is: at its prompt, with its requests sent and its lines to read. -/
structure Aligned (s : TcpClient) (prompt : Prompt) (sent lines : List Str) : Prop where
  place : s.place.At prompt
  sent : s.sent = sent
  cin : s.cin.After lines
  str : strip s.str ≠ lit "0"

/-- What becomes of the client when a session ends: it has returned, or it is past the session. -/
def Comes (s : TcpClient) (session : Session) : Prop :=
  if session.ending = .quitAtPrompt then
    s.place = .returned ∧ s.sent = session.sent ∧ s.cin.After session.left
  else Beyond session.left.length s

/-- One read of the client, whatever the junk: it comes to the end of the session, or to a later point
of it. -/
def Follows (peer : Peer) (s : TcpClient) (rest : Session) (lines : List Str) : Prop :=
  (∀ junk, ∃ s', step peer s junk = .ok s' ∧ Comes s' rest) ∨
    ∃ prompt sent more, more.length < lines.length ∧ rest = session peer prompt sent more ∧
      ∀ junk, ∃ s', step peer s junk = .ok s' ∧ Aligned s' prompt sent more

variable {s : TcpClient} {sent lines : List Str}

theorem follows_menu (hs : Aligned s .menu sent lines) :
    Follows peer s (session peer .menu sent lines) lines := by
  obtain ⟨place, cin, str, sent'⟩ := s
  obtain ⟨⟨⟩, rfl, hcin, hstr⟩ := hs
  have hread := Cin.readUntil_after Cin.local_scanInt validInteger hcin hcin.length_lt
  rw [session_menu]
  cases hchoice : Cin.firstChoice (Cin.choice Cin.scanInt validInteger) lines with
  | none =>
    refine .inl fun junk => ?_
    have hend := hread junk.1
    rw [hchoice] at hend
    have hpast : ∀ {place : Place}, place ≠ .returned →
        Comes ⟨place, (readInteger cin junk.1).1, str, sent'⟩ ⟨sent', .endOfInput, []⟩ :=
      fun hopen => Beyond.going hopen hend (Nat.zero_le _) hstr
    unfold step
    dsimp only
    split
    · exact ⟨_, rfl, hpast (by simp)⟩
    · split
      · exact ⟨_, rfl, hpast (by simp)⟩
      · exact ⟨_, rfl, hpast (by simp)⟩
  | some found =>
    obtain ⟨num, more⟩ := found
    have hless := (Cin.firstChoice_eq_some hchoice).1
    have hnum : ∀ junk, (readInteger cin junk).1.After more ∧ (readInteger cin junk).2 = num := by
      intro junk
      have hfound := hread junk
      rw [hchoice] at hfound
      exact hfound
    dsimp only
    by_cases hkeyword : num = 1
    · rw [if_pos hkeyword]
      refine .inr ⟨.search .keyword, sent', more, hless, rfl, fun junk => ?_⟩
      obtain ⟨hmore, hvalue⟩ := hnum junk.1
      refine ⟨⟨.search .keyword, (readInteger cin junk.1).1, str, sent'⟩, ?_, .search _, rfl, hmore, hstr⟩
      unfold step
      dsimp only
      rw [if_pos (hvalue.trans hkeyword)]
    · rw [if_neg hkeyword]
      by_cases hweb : num = 2
      · rw [if_pos hweb]
        refine .inr ⟨.search .web, sent', more, hless, rfl, fun junk => ?_⟩
        obtain ⟨hmore, hvalue⟩ := hnum junk.1
        refine ⟨⟨.search .web, (readInteger cin junk.1).1, str, sent'⟩, ?_, .search _, rfl, hmore, hstr⟩
        unfold step
        dsimp only
        rw [hvalue, if_neg hkeyword, if_pos hweb]
      · rw [if_neg hweb]
        refine .inl fun junk => ?_
        obtain ⟨hmore, hvalue⟩ := hnum junk.1
        refine ⟨⟨.menu, (readInteger cin junk.1).1, str, sent'⟩, ?_,
          Beyond.going (by simp) hmore (Nat.le_refl _) hstr⟩
        unfold step
        dsimp only
        rw [hvalue, if_neg hkeyword, if_neg hweb]

theorem follows_search {mode : Mode} {line : Str}
    (hs : Aligned s (.search mode) sent (line :: lines)) :
    Follows peer s (session peer (.search mode) sent (line :: lines)) (line :: lines) := by
  obtain ⟨place, cin, str, sent'⟩ := s
  obtain ⟨⟨⟩, rfl, hcin, hstr⟩ := hs
  obtain ⟨hmore, hline⟩ := Cin.getline_after hcin str
  rw [session, enter]
  have hgoes : ∀ {place : Place} {prompt : Prompt} {sent : List Str}, place.At prompt →
      strip line ≠ lit "0" →
      (∀ junk, step peer ⟨.search mode, cin, str, sent'⟩ junk =
        .ok ⟨place, (cin.getline str).1, strip line, sent⟩) →
      Follows peer ⟨.search mode, cin, str, sent'⟩ (session peer prompt sent lines) (line :: lines) :=
    fun hplace hquit hstep => .inr ⟨_, _, lines, Nat.lt_succ_self _, rfl, fun junk =>
      ⟨_, hstep junk, hplace, rfl, hmore, (strip_strip line).symm ▸ hquit⟩⟩
  by_cases hempty : strip line = []
  · rw [if_pos hempty]
    refine hgoes (.search mode) (hempty ▸ by decide) fun junk => ?_
    unfold step
    dsimp only
    rw [hline, if_pos hempty]
  · rw [if_neg hempty]
    by_cases hquit : strip line = lit "0"
    · rw [if_pos hquit]
      refine .inl fun junk => ?_
      refine ⟨⟨.returned, (cin.getline str).1, strip line, sent'⟩, ?_, rfl, rfl, hmore⟩
      unfold step
      dsimp only
      rw [hline, if_neg hempty, if_pos hquit]
    · rw [if_neg hquit]
      by_cases hone : strip line = lit "1"
      · rw [if_pos hone]
        refine hgoes (.search .keyword) hquit fun junk => ?_
        unfold step
        dsimp only
        rw [hline, if_neg hempty, if_neg hquit, if_pos hone]
      · rw [if_neg hone]
        by_cases htwo : strip line = lit "2"
        · rw [if_pos htwo]
          refine hgoes (.search .web) hquit fun junk => ?_
          unfold step
          dsimp only
          rw [hline, if_neg hempty, if_neg hquit, if_neg hone, if_pos htwo]
        · rw [if_neg htwo]
          dsimp only
          by_cases hfew : (peer.shown (sent' ++ [packMsgToJson peer.json mode.id
              (strip line)])).pages.length ≤ 5
          · rw [if_pos hfew]
            refine hgoes (.search mode) hquit fun junk => ?_
            unfold step
            dsimp only
            rw [hline, if_neg hempty, if_neg hquit, if_neg hone, if_neg htwo, peer.readable,
              Except.ok_bind, if_pos hfew]
          · rw [if_neg hfew]
            have hmany := Nat.lt_of_not_le hfew
            have hfits := peer.fits (sent' ++ [packMsgToJson peer.json mode.id (strip line)])
            refine hgoes (.paging mode hmany hfits ⟨0, .turned, Nat.zero_lt_of_lt hmany, rfl⟩) hquit
              fun junk => ?_
            unfold step
            dsimp only
            rw [hline, if_neg hempty, if_neg hquit, if_neg hone, if_neg htwo, peer.readable,
              Except.ok_bind, if_neg hfew, Pager.start_eq hfits hmany]
            rfl

theorem follows_paging {mode : Mode} (hs : Aligned s (.paging mode) sent lines) :
    Follows peer s (session peer (.paging mode) sent lines) lines := by
  obtain ⟨place, cin, str, sent'⟩ := s
  obtain ⟨hplace, rfl, hcin, hstr⟩ := hs
  cases hplace with
  | paging _ hmany hint hscreen =>
    have hread := Cin.readUntil_after Cin.local_scanChar validChar hcin hcin.length_lt
    rw [session_paging]
    cases hchoice : Cin.firstChoice (Cin.choice Cin.scanChar validChar) lines with
    | none =>
      refine .inl fun junk => ?_
      have hend := hread junk.2
      rw [hchoice] at hend
      unfold step
      dsimp only
      split
      · exact ⟨_, rfl, Beyond.going (by simp) hend (Nat.zero_le _) hstr⟩
      · next hquit =>
        obtain ⟨pager', hpress, -⟩ := hscreen.press_any hint hmany (readChar cin junk.2).2
        rw [hpress]
        exact ⟨_, rfl, Beyond.going (by simp) hend (Nat.zero_le _) hstr⟩
    | some found =>
      obtain ⟨ch, more⟩ := found
      obtain ⟨hless, line, hchoose⟩ := Cin.firstChoice_eq_some hchoice
      have hch : ∀ junk, (readChar cin junk).1.After more ∧ (readChar cin junk).2 = ch := by
        intro junk
        have hfound := hread junk
        rw [hchoice] at hfound
        exact hfound
      dsimp only
      by_cases hquit : ch = Pager.quit
      · rw [if_pos hquit]
        refine .inr ⟨.search mode, sent', more, hless, rfl, fun junk => ?_⟩
        obtain ⟨hmore, hvalue⟩ := hch junk.2
        refine ⟨⟨.search mode, (readChar cin junk.2).1, str, sent'⟩, ?_, .search mode, rfl, hmore, hstr⟩
        unfold step
        dsimp only
        rw [if_pos (hvalue.trans hquit)]
      · rw [if_neg hquit]
        obtain ⟨pager', hpress, hscreen'⟩ := hscreen.press hint hmany
          (turns_of_validChar (Cin.valid_of_choice hchoose) hquit)
        refine .inr ⟨.paging mode, sent', more, hless, rfl, fun junk => ?_⟩
        obtain ⟨hmore, hvalue⟩ := hch junk.2
        refine ⟨⟨.paging mode _ pager', (readChar cin junk.2).1, str, sent'⟩, ?_,
          .paging mode hmany hint hscreen', rfl, hmore, hstr⟩
        unfold step
        dsimp only
        rw [hvalue, if_neg hquit, hpress]
        rfl

/-- At any prompt the client follows a session that has a line. -/
theorem follows {prompt : Prompt} {line : Str} (hs : Aligned s prompt sent (line :: lines)) :
    Follows peer s (session peer prompt sent (line :: lines)) (line :: lines) := by
  cases prompt with
  | menu => exact follows_menu hs
  | search mode => exact follows_search hs
  | paging mode => exact follows_paging hs

theorem steps_succ (s : TcpClient) (junk : Nat → Int × UInt8) (n : Nat) :
    steps peer s junk (n + 1) =
      step peer s (junk 0) >>= fun s' => steps peer s' (fun i => junk (i + 1)) n := by
  unfold steps
  rw [List.range_succ_eq_map, List.map_cons, List.map_map, Run.run_cons]
  rfl

/-- **The client follows the session to its end.** -/
theorem follow (peer : Peer) {prompt : Prompt} (hs : Aligned s prompt sent lines)
    (junk : Nat → Int × UInt8) :
    ∃ n s', steps peer s junk n = .ok s' ∧ Comes s' (session peer prompt sent lines) := by
  induction hlength : lines.length using Nat.strong_induction_on generalizing s prompt sent lines junk with
  | _ length ih =>
    subst hlength
    cases lines with
    | nil =>
      have hopen : s.place ≠ .returned := by
        intro h
        have hat := hs.place
        rw [h] at hat
        cases hat
      exact ⟨0, s, rfl, Beyond.going hopen hs.cin (Nat.zero_le _) hs.str⟩
    | cons line lines =>
      have hfollows : Follows peer s _ _ := follows hs
      rcases hfollows with hends | ⟨prompt', sent', more, hless, hrest, hgoes⟩
      · obtain ⟨s', hstep, hcomes⟩ := hends (junk 0)
        refine ⟨1, s', ?_, hcomes⟩
        rw [steps_succ, hstep]
        rfl
      · obtain ⟨s₁, hstep, hs₁⟩ := hgoes (junk 0)
        obtain ⟨n, s', hrun, hcomes⟩ := ih more.length hless hs₁ (fun i => junk (i + 1)) rfl
        refine ⟨n + 1, s', ?_, hrest ▸ hcomes⟩
        rw [steps_succ, hstep]
        exact hrun

theorem aligned_start (input : Str) : Aligned (start input) .menu [] (getlines input) := by
  refine ⟨.menu, rfl, .inl ⟨rfl, rfl, rfl⟩, ?_⟩
  show strip [] ≠ lit "0"
  decide

/-! ## What the client promises -/

/-- A client that has returned stays as it is. -/
theorem run_returned (hplace : s.place = .returned) (junks : List (Int × UInt8)) :
    Run.run (step peer) s junks = .ok s := by
  induction junks with
  | nil => rfl
  | cons junk junks ih =>
    have hstep : step peer s junk = .ok s := by
      unfold step
      rw [hplace]
    rw [Run.run_cons, hstep]
    exact ih

/-- A client that conforms returned when the session ended, and that was at a prompt: past any other
end it cannot return at the line for it, however far it goes. -/
theorem Conforms.ending {input : Str} (h : Conforms peer input) :
    (session peer .menu [] (getlines input)).ending = .quitAtPrompt := by
  obtain ⟨n, s, hrun, hplace, -, hleft⟩ := h fun _ => (0, 0)
  obtain ⟨n', s', hrun', hcomes⟩ := follow peer (aligned_start input) fun _ => (0, 0)
  by_contra hending
  rw [Comes, if_neg hending] at hcomes
  unfold steps at hrun hrun'
  rw [List.map_const', List.length_range] at hrun hrun'
  have hlater : Run.run (step peer) s' (List.replicate n (0, 0)) = .ok s := by
    calc Run.run (step peer) s' (List.replicate n (0, 0))
        = Run.run (step peer) (start input) (List.replicate (n' + n) (0, 0)) := by
          rw [List.replicate_add, Run.run_append, hrun', Except.ok_bind]
      _ = Run.run (step peer) (start input) (List.replicate (n + n') (0, 0)) := by
          rw [Nat.add_comm]
      _ = .ok s := by
          rw [List.replicate_add, Run.run_append, hrun, Except.ok_bind, run_returned hplace]
  exact (hcomes.run hlater).not_returned hplace rfl hleft

/-- **What the menu promises is done** exactly when the first `0` is entered at a prompt for keywords
or pages, and not at the menu, and the input does not end before it. -/
theorem conforms_iff (peer : Peer) (input : Str) :
    Conforms peer input ↔ (session peer .menu [] (getlines input)).ending = .quitAtPrompt := by
  constructor
  · exact Conforms.ending
  · intro hending junk
    obtain ⟨n, s, hrun, hcomes⟩ := follow peer (aligned_start input) junk
    rw [Comes, if_pos hending] at hcomes
    obtain ⟨hplace, hsent, hcin⟩ := hcomes
    exact ⟨n, s, hrun, hplace, hsent, hcin.getlines_rest⟩

/-- A server that finds nothing. -/
def quietPeer : Peer where
  json := Json.compact
  reply _ := packMsgToJson Json.compact (lit "100") []
  shown _ := .noKeywords
  readable _ := by
    rw [handleMessage, readFields_pack (parse_packMsgToJson Json.compact_laws (Utf8.valid_lit "100")
      Utf8.valid_nil)]
    rfl
  fits _ := by
    show (0 : Nat) < 2 ^ 31
    decide

/-- The `0` of the menu does not quit; nor does the end of the input, behind a request that was sent. -/
theorem not_conforms : ¬ Conforms quietPeer (lit "0\n") ∧ ¬ Conforms quietPeer (lit "1\nabc\n") := by
  constructor
  · intro h
    exact absurd h.ending (by decide)
  · intro h
    exact absurd h.ending (by decide)

end TcpClient

end LightSearch
