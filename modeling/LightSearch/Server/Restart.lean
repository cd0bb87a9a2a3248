import LightSearch.Server.SearchServer
import LightSearch.Utility.CacheFile

/-!
# Restarting the server

What the workers and the timer do to the caches are calls of the cache class and nothing else
(`serve_calls`). So whatever is known of every run of calls is known of a server that has been
running: its caches are valid, and their entries are keyword replies.

A restart writes a cache and loads the file into a new one. The two agree on every lookup exactly
when they have the same entries, and they do exactly when each key is one word: `isPureEnglish` lets
a message with blanks pass, and its key does not come back.
-/

set_option autoImplicit false

namespace LightSearch

open Cxx

variable {m : Nat} {json : Json.Text} {b : Backend}

/-! ## Tasks are calls -/

/-- The caches `caches'` are reached from `caches` by calls that put only keyword replies. -/
def Reaches (json : Json.Text) (b : Backend) (caches caches' : Caches (m + 1)) : Prop :=
  ∃ calls, Run.run call caches calls = .ok caches' ∧ ∀ op ∈ calls, op.Puts (Keyword json b)

theorem Reaches.refl (caches : Caches (m + 1)) : Reaches json b caches caches :=
  ⟨[], rfl, fun _ hop => absurd hop List.not_mem_nil⟩

theorem Reaches.trans {c₁ c₂ c₃ : Caches (m + 1)} (h₁ : Reaches json b c₁ c₂)
    (h₂ : Reaches json b c₂ c₃) : Reaches json b c₁ c₃ := by
  obtain ⟨calls₁, hrun₁, hputs₁⟩ := h₁
  obtain ⟨calls₂, hrun₂, hputs₂⟩ := h₂
  refine ⟨calls₁ ++ calls₂, by rw [Run.run_append, hrun₁, Except.ok_bind, hrun₂], ?_⟩
  intro op hop
  rcases List.mem_append.mp hop with hop | hop
  · exact hputs₁ op hop
  · exact hputs₂ op hop

theorem Reaches.get {caches caches' : Caches (m + 1)} {i : Fin (m + 1)} {key val : Str}
    (h : caches.get i key = .ok (caches', val)) : Reaches json b caches caches' := by
  refine ⟨[.get i key], ?_, ?_⟩
  · simp only [Run.run_cons, Run.run_nil, call, h, Except.ok_bind]
  · intro op hop
    obtain rfl := List.mem_singleton.mp hop
    trivial

theorem Reaches.put {caches caches' : Caches (m + 1)} {i : Fin (m + 1)} {key val : Str}
    {update : Bool} (hkey : Keyword json b (key, val))
    (h : caches.put i key val update = .ok caches') : Reaches json b caches caches' := by
  refine ⟨[.put i key val update], ?_, ?_⟩
  · simp only [Run.run_cons, Run.run_nil, call, h, Except.ok_bind]
  · intro op hop
    obtain rfl := List.mem_singleton.mp hop
    exact hkey

/-- **A task uses the caches by calls only**, and puts only a keyword reply that is not empty. -/
theorem threadTask_calls {s s' : ServerState m} {threadID : Fin (m + 1)} {msg reply : Str}
    (h : threadTask json b s threadID msg = .ok (s', reply)) :
    Reaches json b s.manager.caches s'.manager.caches := by
  obtain ⟨⟨messageId, message⟩, hfields, h⟩ := Except.bind_eq_ok.mp h
  dsimp only at h
  split at h
  · next hid =>
    subst hid
    obtain ⟨⟨caches, val⟩, hget, h⟩ := Except.bind_eq_ok.mp h
    have hreach : Reaches json b s.manager.caches caches := Reaches.get hget
    dsimp only at h
    split at h
    · obtain ⟨tocMessage, hparse, h⟩ := Except.bind_eq_ok.mp h
      rw [doParse_of_fields hfields] at hparse
      split at h
      · obtain ⟨rfl, -⟩ := Prod.mk.inj (Except.ok.inj h)
        exact hreach
      · next hne =>
        obtain ⟨caches', hput, h⟩ := Except.bind_eq_ok.mp h
        obtain ⟨rfl, -⟩ := Prod.mk.inj (Except.ok.inj h)
        exact hreach.trans (Reaches.put ⟨hparse, hne⟩ hput)
    · obtain ⟨rfl, -⟩ := Prod.mk.inj (Except.ok.inj h)
      exact hreach
  · split at h
    · obtain ⟨tocMessage, -, h⟩ := Except.bind_eq_ok.mp h
      split at h
      · obtain ⟨rfl, -⟩ := Prod.mk.inj (Except.ok.inj h)
        exact Reaches.refl _
      · obtain ⟨rfl, -⟩ := Prod.mk.inj (Except.ok.inj h)
        exact Reaches.refl _
    · obtain ⟨rfl, -⟩ := Prod.mk.inj (Except.ok.inj h)
      exact Reaches.refl _

/-- An event reaches new caches by calls only. -/
theorem serve_calls {s s' : ServerState m × List Str} {event : Event m}
    (h : serve json b s event = .ok s') :
    Reaches json b s.1.manager.caches s'.1.manager.caches := by
  cases event with
  | request threadID msg =>
    obtain ⟨⟨state, reply⟩, htask, h⟩ := Except.bind_eq_ok.mp h
    obtain rfl := Except.ok.inj h
    exact threadTask_calls htask
  | updateCache =>
    obtain ⟨manager, hupdate, h⟩ := Except.bind_eq_ok.mp h
    obtain rfl := Except.ok.inj h
    obtain ⟨caches, hrun, hmanager⟩ := Except.bind_eq_ok.mp hupdate
    obtain rfl := Except.ok.inj hmanager
    exact ⟨updateCalls m, hrun, puts_updateCalls _⟩

/-- **The caches of a running server**: from new caches, whatever was served, each cache is valid at
its capacity and has only keyword replies. -/
theorem serve_caches {redis : Str → Option Str} {events : List (Event m)} {s' : ServerState m}
    {replies : List Str}
    (h : Run.run (serve json b) (⟨initCache m [], redis⟩, []) events = .ok (s', replies))
    (i : Fin (m + 1)) :
    (s'.manager.caches i).Valid ∧ (s'.manager.caches i).capacity = m + 1 ∧
      (s'.manager.caches i).Filled (Keyword json b) := by
  -- `initCache` loads nothing from an empty file
  have hinit : (initCache m []).caches = fun _ => LRUCache.new (m + 1) := rfl
  obtain ⟨calls, hrun, hputs⟩ := Run.run_keeps
    (fun s : ServerState m × List Str => Reaches json b (initCache m []).caches s.1.manager.caches)
    (fun _ _ _ hs hstep => hs.trans (serve_calls hstep)) (Reaches.refl _) h
  rw [hinit] at hrun
  obtain ⟨c₁, hrun₁, hvalid⟩ := Run.run_always (Caches.Valid fun _ => m + 1)
    (fun _ op h => valid_call h op) (valid_new_caches fun _ => Nat.succ_pos m) calls
  obtain ⟨c₂, hrun₂, hfilled⟩ := Run.run_total (Caches.Filled (Keyword json b))
    (Call.Puts (Keyword json b)) (fun _ _ h hop => filled_call h hop)
    (fun _ => LRUCache.filled_new (Nat.succ_pos m)) calls hputs
  obtain rfl := Except.ok.inj (hrun₁.symm.trans hrun)
  obtain rfl := Except.ok.inj (hrun₂.symm.trans hrun)
  exact ⟨(hvalid i).1, (hvalid i).2, hfilled i⟩

/-! ## The round trip -/

/-- A new cache of the same capacity that has loaded what the cache wrote. -/
def LRUCache.restarted (c : LRUCache) : LRUCache :=
  (LRUCache.new c.capacity).readFromFile c.writeToFile

/-- The restarted cache has the same entries in the same order, and every lookup answers the same. -/
def RoundTrips (c : LRUCache) : Prop :=
  c.restarted.entries = c.entries ∧
    ∀ key, ∃ c' d' val, c.get key = .ok (c', val) ∧ c.restarted.get key = .ok (d', val)

/-- A valid cache whose values are words round-trips exactly when its keys are words. -/
theorem LRUCache.Valid.savedWell_iff {c : LRUCache} (h : c.Valid)
    (values : ∀ e ∈ c.entries, Word e.2) : RoundTrips c ↔ ∀ key ∈ c.keys, Word key := by
  have hentries : c.restarted.entries = filePairs c.writeToFile :=
    LRUCache.readFromFile_entries c.capacity c.writeToFile
  have hkeys : (∀ key ∈ c.keys, Word key) ↔ ∀ e ∈ c.entries, Word e.1 := by
    rw [LRUCache.keys_eq]
    exact List.forall_mem_map
  rw [hkeys, ← filePairs_writeToFile_iff values, ← hentries]
  refine ⟨fun htrip => htrip.1, fun hsame => ⟨hsame, fun key => ?_⟩⟩
  rw [hsame] at hentries
  have hvalid : c.restarted.Valid := by
    refine LRUCache.valid_readFromFile h.capacity_pos ?_ ?_
    · rw [← hentries, ← LRUCache.keys_eq]
      exact h.keys_nodup
    · rw [← hentries]
      exact h.entries_length
  obtain ⟨c', hget, -⟩ := LRUCache.get_valid h key
  obtain ⟨d', hget', -⟩ := LRUCache.get_valid hvalid key
  rw [hsame] at hget'
  exact ⟨c', d', _, hget, hget'⟩

/-- **The restart round trip.** When no reply has white space, a cache of a server that was started
with an empty file and has served any requests and updates round-trips exactly when each of its keys
is a word: not empty, and without white space. -/
theorem roundTrips_iff
    (values : ∀ key reply, doParseFields json b (lit "1") key = .ok reply →
      ∀ ch ∈ reply, isspace ch = false)
    {redis : Str → Option Str} {events : List (Event m)} {s' : ServerState m} {replies : List Str}
    (hrun : Run.run (serve json b) (⟨initCache m [], redis⟩, []) events = .ok (s', replies))
    (i : Fin (m + 1)) :
    RoundTrips (s'.manager.caches i) ↔ ∀ key ∈ (s'.manager.caches i).keys, Word key := by
  obtain ⟨hvalid, -, hfilled⟩ := serve_caches hrun i
  refine hvalid.savedWell_iff fun e he => ?_
  obtain ⟨hreply, hne⟩ := hfilled.listed e he
  exact ⟨hne, values e.1 e.2 hreply⟩

/-- A backend whose dictionary has one word. -/
def oneWord : Backend where
  mixed := fun _ => .ok []
  english := fun queryString =>
    .ok (if queryString = [] then [] else lit "\x7b\"Keywords\":[\"hello\"]\x7d")
  chinese := fun _ => .ok []
  webPage := fun _ => .ok []

/-- The reply to a keyword request that finds the word. -/
def oneWordReply : Str :=
  packMsgToJson Json.flat (lit "100") (lit "\x7b\"Keywords\":[\"hello\"]\x7d")

theorem oneWord_reply {key reply : Str}
    (h : doParseFields Json.flat oneWord (lit "1") key = .ok reply) :
    ∀ ch ∈ reply, isspace ch = false := by
  have hreply : reply = [] ∨ reply = oneWordReply := by
    simp only [doParseFields, oneWord, ↓reduceIte, Except.ok_bind] at h
    split at h
    · exact .inl (Except.ok.inj h).symm
    · split at h
      · split at h
        · exact .inl (Except.ok.inj h).symm
        · exact .inr (Except.ok.inj h).symm
      · exact .inl (Except.ok.inj h).symm
  rcases hreply with rfl | rfl
  · exact fun _ hch => absurd hch List.not_mem_nil
  · intro ch hch
    have hclean : oneWordReply.any isspace = false := by decide
    exact Bool.not_eq_true _ ▸ List.any_eq_false.mp hclean ch hch

/-- The request `hello`, as a round trip of cache 0. -/
theorem roundTrips_iff_hello :
    let events : List (Event 0) := [.request 0 (Json.flat.dump (packJson (lit "1") (lit "hello")))]
    ∃ s' replies,
      ((∀ key reply, doParseFields Json.flat oneWord (lit "1") key = .ok reply →
          ∀ ch ∈ reply, isspace ch = false) ∧
        Run.run (serve Json.flat oneWord) (⟨initCache 0 [], fun _ => none⟩, []) events =
          .ok (s', replies)) ∧
      (RoundTrips (s'.manager.caches 0) ↔ ∀ key ∈ (s'.manager.caches 0).keys, Word key) := by
  intro events
  obtain ⟨⟨s', replies⟩, hrun, -⟩ := Except.exists_of_check (p := fun _ => true)
    (x := Run.run (serve Json.flat oneWord) (⟨initCache 0 [], fun _ => none⟩, []) events)
    (by decide +kernel)
  exact ⟨s', replies, ⟨fun _ _ h => oneWord_reply h, hrun⟩,
    roundTrips_iff (fun _ _ h => oneWord_reply h) hrun 0⟩

/-- After the request `hello world` and a restart, its key is gone, and the key `hello` answers with
the word `world`. -/
theorem not_roundTrips_blank :
    let events : List (Event 0) :=
      [.request 0 (Json.flat.dump (packJson (lit "1") (lit "hello world")))]
    ∃ s' replies,
      Run.run (serve Json.flat oneWord) (⟨initCache 0 [], fun _ => none⟩, []) events =
        .ok (s', replies) ∧
      (s'.manager.caches 0).entries = [(lit "hello world", oneWordReply)] ∧
      (s'.manager.caches 0).restarted.entries = [(lit "hello", lit "world")] ∧
      ¬ RoundTrips (s'.manager.caches 0) := by
  intro events
  obtain ⟨⟨s', replies⟩, hrun, hcheck⟩ := Except.exists_of_check
    (p := fun s => (s.1.manager.caches 0).entries = [(lit "hello world", oneWordReply)] ∧
      (s.1.manager.caches 0).restarted.entries = [(lit "hello", lit "world")])
    (x := Run.run (serve Json.flat oneWord) (⟨initCache 0 [], fun _ => none⟩, []) events)
    (by decide +kernel)
  obtain ⟨hbefore, hafter⟩ := of_decide_eq_true hcheck
  dsimp only at hbefore hafter
  refine ⟨s', replies, hrun, hbefore, hafter, fun htrip => ?_⟩
  have hsame := htrip.1
  rw [hbefore, hafter] at hsame
  exact absurd hsame (by decide +kernel)

end LightSearch
