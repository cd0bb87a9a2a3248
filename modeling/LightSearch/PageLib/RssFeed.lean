import LightSearch.PageLib.RssReader

/-!
# From a feed to its items

`parseRss` looks up the first `rss`, its first `channel` and the first `item` of that, without asking
whether the first two are there, and `traversingXML` goes on through all siblings of the item, whatever
they are. It takes the text of a child without asking whether it has one.

Each item read is kept here with its node (`traversingTraced`), so that one can say which nodes were
read. They are the items of the feed exactly for a `Regular` document (`extracts_iff`).
-/

set_option autoImplicit false

namespace LightSearch

open Cxx

/-- A node of the XML library: an element with its children, a text, or a comment; a declaration is
something else. -/
inductive XMLNode where
  | element (name : Str) (children : List XMLNode)
  | text (value : Str)
  | comment
  | other

namespace XMLNode

/-- The children; only an element has any. -/
def children : XMLNode → List XMLNode
  | element _ children => children
  | _ => []

/-- It is an element of this name. -/
def isNamed (name : Str) : XMLNode → Bool
  | element n _ => n = name
  | _ => false

def isElement : XMLNode → Bool
  | element _ _ => true
  | _ => false

def isComment : XMLNode → Bool
  | comment => true
  | _ => false

/-- `FirstChildElement`, on the children. -/
def firstChildElement (name : Str) (children : List XMLNode) : Option XMLNode :=
  children.find? (isNamed name)

/-- A node found, and its siblings behind it. -/
def fromFirst (name : Str) (children : List XMLNode) : List XMLNode :=
  children.dropWhile fun node => !node.isNamed name

/-- `GetText`: comments are skipped, and then a text has to come. -/
def getText (node : XMLNode) : Option Str :=
  match node.children.dropWhile isComment with
  | text value :: _ => some value
  | _ => none

/-- What `traversingXML` asks of a node. -/
def itemNode (node : XMLNode) : ItemNode where
  title := (firstChildElement (lit "title") node.children).map getText
  link := (firstChildElement (lit "link") node.children).map getText
  description := (firstChildElement (lit "description") node.children).map getText
  content := (firstChildElement (lit "content:encoded") node.children).map getText

end XMLNode

open XMLNode

/-- A document: its nodes, of which one is an element, the root. -/
structure XMLDocument where
  prolog : List XMLNode
  root : XMLNode
  epilog : List XMLNode
  root_isElement : root.isElement = true
  prolog_noElement : ∀ node ∈ prolog, node.isElement = false
  epilog_noElement : ∀ node ∈ epilog, node.isElement = false

def XMLDocument.nodes (doc : XMLDocument) : List XMLNode := doc.prolog ++ doc.root :: doc.epilog

namespace RssReader

/-- The node that `parseRss` starts from, with its siblings: none if there is no item. -/
def firstItem (doc : XMLDocument) : Except Fault (List XMLNode) :=
  match firstChildElement (lit "rss") doc.nodes with
  | none => .error .nullPointer
  | some rss =>
    match firstChildElement (lit "channel") rss.children with
    | none => .error .nullPointer
    | some channel => .ok (fromFirst (lit "item") channel.children)

/-- `parseRss`, when the document was loaded: what `_rss` has then. -/
def parseRss (doc : XMLDocument) (rss : List RssItem) : Except Fault (List RssItem) := do
  let nodes ← firstItem doc
  let items ← traversingXML (nodes.map itemNode)
  .ok (rss ++ items)

/-- `dump`, when the id of a new page happens to be `docId`. -/
def dump (docId : Nat) (rss : List RssItem) (pageLib : List WebPage) : List WebPage :=
  pageLib ++ rss.map (WebPage.new docId)

/-- One file of `doProcess`: `parseRss` and then `dump`. -/
def processFile (doc : XMLDocument) (rss : List RssItem) (docId : Nat) (pageLib : List WebPage) :
    Except Fault (List RssItem × List WebPage) := do
  let rss ← parseRss doc rss
  .ok (rss, dump docId rss pageLib)

/-- `traversingXML`, and the node of each item. -/
def traversingTraced : List XMLNode → Except Fault (List (XMLNode × RssItem))
  | [] => .ok []
  | node :: siblings => do
    let item ← readItem node.itemNode
    let rest ← traversingTraced siblings
    .ok (item.toList.map (fun tem => (node, tem)) ++ rest)

/-- The items of a document with their nodes. -/
def parseTraced (doc : XMLDocument) : Except Fault (List (XMLNode × RssItem)) := do
  let nodes ← firstItem doc
  traversingTraced nodes

/-! ## What a document has -/

/-- The channels of the root, if that is `rss`. -/
def channels (doc : XMLDocument) : List XMLNode :=
  (doc.nodes.filter (isNamed (lit "rss"))).flatMap fun rss =>
    rss.children.filter (isNamed (lit "channel"))

/-- The node has a description or a content. -/
def isDescribed (node : XMLNode) : Bool :=
  (firstChildElement (lit "description") node.children).isSome ||
    (firstChildElement (lit "content:encoded") node.children).isSome

/-- The items of a channel that have a description or a content. -/
def describedItems (channel : XMLNode) : List XMLNode :=
  channel.children.filter fun node => node.isNamed (lit "item") && isDescribed node

/-- The items of the document that should be extracted. -/
def feedItems (doc : XMLDocument) : List XMLNode := (channels doc).flatMap describedItems

/-- The first child of each of the four names, where there is one, has a text. -/
def Readable (node : XMLNode) : Prop :=
  ∀ name ∈ [lit "title", lit "link", lit "description", lit "content:encoded"],
    ∀ child, firstChildElement name node.children = some child → child.getText.isSome = true

/-- A document whose items can be told from what `parseRss` looks at: it has a channel, the nodes of
the first channel from the first item on are readable, only items among them are described, and another
channel has no described item. -/
def Regular (doc : XMLDocument) : Prop :=
  ∃ channel others, channels doc = channel :: others ∧
    (∀ node ∈ fromFirst (lit "item") channel.children,
      Readable node ∧ (isDescribed node = true → node.isNamed (lit "item") = true)) ∧
    ∀ later ∈ others, describedItems later = []

/-- A field has the text of the child, if there is one, and is empty otherwise. -/
def FieldOf (node : XMLNode) (name field : Str) : Prop :=
  match firstChildElement name node.children with
  | none => field = []
  | some child => ∃ text, child.getText = some text ∧ replaceRegex (cstr text) = .ok field

/-- The fields of an item have the texts of its children. -/
structure ReadFrom (node : XMLNode) (tem : RssItem) : Prop where
  title : FieldOf node (lit "title") tem.title
  link : FieldOf node (lit "link") tem.link
  description : FieldOf node (lit "description") tem.description
  content : FieldOf node (lit "content:encoded") tem.content

/-- What should become of a document: `parseRss` and `dump` return, and `_rss` gets, in document order,
one item for each item of the document with a description or a content, with the texts of its children,
and no other. -/
def Extracts (doc : XMLDocument) : Prop :=
  ∃ items, parseTraced doc = .ok items ∧ items.map Prod.fst = feedItems doc ∧
    (∀ item ∈ items, ReadFrom item.1 item.2) ∧
    ∀ rss docId pageLib, processFile doc rss docId pageLib =
      .ok (rss ++ items.map Prod.snd, dump docId (rss ++ items.map Prod.snd) pageLib)

/-! ## One node -/

theorem childText_ok {child : Option XMLNode} :
    (∃ text, childText (child.map getText) = .ok text) ↔
      ∀ c, child = some c → c.getText.isSome = true := by
  cases child with
  | none => exact iff_of_true ⟨[], rfl⟩ fun _ h => nomatch h
  | some c =>
    cases hgot : c.getText with
    | none => simp [childText, hgot]
    | some value =>
      obtain ⟨text, hok, -⟩ := replaceRegex_ok (zero_not_mem_cstr value)
      simp [childText, hgot, hok]

theorem fieldOf_of_childText {node : XMLNode} {name text : Str}
    (h : childText ((firstChildElement name node.children).map getText) = .ok text) :
    FieldOf node name text := by
  unfold FieldOf
  cases hchild : firstChildElement name node.children with
  | none =>
    rw [hchild] at h
    exact (Except.ok.inj h).symm
  | some child =>
    rw [hchild] at h
    cases hgot : child.getText with
    | none =>
      simp only [Option.map_some, hgot, childText] at h
      cases h
    | some value =>
      simp only [Option.map_some, hgot, childText] at h
      exact ⟨value, hgot, h⟩

/-- A node that is readable is read, and it is kept when it is described. -/
theorem readItem_of_readable {node : XMLNode} (h : Readable node) :
    ∃ item, readItem node.itemNode = .ok item := by
  obtain ⟨title, htitle⟩ := childText_ok.mpr (h (lit "title") (by simp))
  obtain ⟨link, hlink⟩ := childText_ok.mpr (h (lit "link") (by simp))
  obtain ⟨description, hdescription⟩ := childText_ok.mpr (h (lit "description") (by simp))
  obtain ⟨content, hcontent⟩ := childText_ok.mpr (h (lit "content:encoded") (by simp))
  unfold readItem itemNode
  simp only [htitle, hlink, hdescription, hcontent, Except.ok_bind]
  exact ⟨_, rfl⟩

/-- What was read: the node is readable, it was kept if it is described, and then with its texts. -/
theorem of_readItem {node : XMLNode} {item : Option RssItem} (h : readItem node.itemNode = .ok item) :
    Readable node ∧ (item.isSome = isDescribed node) ∧ ∀ tem ∈ item, ReadFrom node tem := by
  obtain ⟨title, htitle, h⟩ := Except.bind_eq_ok.mp h
  obtain ⟨link, hlink, h⟩ := Except.bind_eq_ok.mp h
  obtain ⟨description, hdescription, h⟩ := Except.bind_eq_ok.mp h
  obtain ⟨content, hcontent, h⟩ := Except.bind_eq_ok.mp h
  obtain rfl := Except.ok.inj h
  have hdescribed : (node.itemNode.description.isSome || node.itemNode.content.isSome) =
      isDescribed node := by
    unfold itemNode isDescribed
    rw [Option.isSome_map, Option.isSome_map]
  refine ⟨?_, ?_, ?_⟩
  · intro name hname
    simp only [List.mem_cons, List.not_mem_nil, or_false] at hname
    rcases hname with rfl | rfl | rfl | rfl
    · exact childText_ok.mp ⟨title, htitle⟩
    · exact childText_ok.mp ⟨link, hlink⟩
    · exact childText_ok.mp ⟨description, hdescription⟩
    · exact childText_ok.mp ⟨content, hcontent⟩
  · rw [hdescribed]
    cases isDescribed node <;> rfl
  · intro tem htem
    split at htem
    · obtain rfl := Option.some.inj htem
      exact ⟨fieldOf_of_childText htitle, fieldOf_of_childText hlink,
        fieldOf_of_childText hdescription, fieldOf_of_childText hcontent⟩
    · cases htem

/-! ## The siblings -/

/-- Forgetting the nodes. -/
theorem traversingTraced_snd (nodes : List XMLNode) :
    traversingXML (nodes.map itemNode) =
      (traversingTraced nodes >>= fun items => .ok (items.map Prod.snd)) := by
  induction nodes with
  | nil => rfl
  | cons node siblings ih =>
    rw [List.map_cons, traversingXML, traversingTraced, ih]
    cases readItem node.itemNode with
    | error fault => rfl
    | ok item =>
      cases traversingTraced siblings with
      | error fault => rfl
      | ok rest =>
        simp only [Except.ok_bind, List.map_append, List.map_map]
        congr 2
        exact (List.map_id _).symm

theorem traversingTraced_of_readable {nodes : List XMLNode} (h : ∀ node ∈ nodes, Readable node) :
    ∃ items, traversingTraced nodes = .ok items := by
  induction nodes with
  | nil => exact ⟨[], rfl⟩
  | cons node siblings ih =>
    obtain ⟨item, hitem⟩ := readItem_of_readable (h node List.mem_cons_self)
    obtain ⟨rest, hrest⟩ := ih fun n hn => h n (List.mem_cons_of_mem _ hn)
    exact ⟨_, by rw [traversingTraced, hitem, Except.ok_bind, hrest]; rfl⟩

/-- **What the siblings give**: all of them are readable, and the described ones were kept. -/
theorem of_traversingTraced {nodes : List XMLNode} {items : List (XMLNode × RssItem)}
    (h : traversingTraced nodes = .ok items) :
    (∀ node ∈ nodes, Readable node) ∧ items.map Prod.fst = nodes.filter isDescribed ∧
      ∀ item ∈ items, ReadFrom item.1 item.2 := by
  induction nodes generalizing items with
  | nil =>
    obtain rfl := Except.ok.inj h
    exact ⟨fun _ h => absurd h List.not_mem_nil, rfl, fun _ h => absurd h List.not_mem_nil⟩
  | cons node siblings ih =>
    obtain ⟨item, hitem, h⟩ := Except.bind_eq_ok.mp h
    obtain ⟨rest, hrest, h⟩ := Except.bind_eq_ok.mp h
    obtain rfl := Except.ok.inj h
    obtain ⟨hreadable, hdescribed, hfields⟩ := of_readItem hitem
    obtain ⟨hsiblings, hnodes, hrestFields⟩ := ih hrest
    refine ⟨List.forall_mem_cons.mpr ⟨hreadable, hsiblings⟩, ?_, ?_⟩
    · rw [List.map_append, hnodes, List.filter_cons, ← hdescribed]
      cases item with
      | none => rfl
      | some tem => rfl
    · intro p hp
      rcases List.mem_append.mp hp with hp | hp
      · obtain ⟨tem, htem, rfl⟩ := List.mem_map.mp hp
        exact hfields tem (Option.mem_toList.mp htem)
      · exact hrestFields p hp

/-! ## The document -/

theorem isNamed_of_not_isElement {node : XMLNode} (h : node.isElement = false) (name : Str) :
    node.isNamed name = false := by
  cases node with
  | element n children => cases h
  | _ => rfl

/-- The elements of a name among the nodes of a document: the root or none. -/
theorem filter_nodes (doc : XMLDocument) (name : Str) :
    doc.nodes.filter (isNamed name) = if doc.root.isNamed name then [doc.root] else [] := by
  have hprolog : doc.prolog.filter (isNamed name) = [] :=
    List.filter_eq_nil_iff.mpr fun node hnode => by
      rw [isNamed_of_not_isElement (doc.prolog_noElement node hnode)]
      exact Bool.false_ne_true
  have hepilog : doc.epilog.filter (isNamed name) = [] :=
    List.filter_eq_nil_iff.mpr fun node hnode => by
      rw [isNamed_of_not_isElement (doc.epilog_noElement node hnode)]
      exact Bool.false_ne_true
  unfold XMLDocument.nodes
  rw [List.filter_append, hprolog, List.nil_append, List.filter_cons, hepilog]

/-- `parseRss` starts in the first channel, and a document without a channel ends it. -/
theorem firstItem_eq (doc : XMLDocument) :
    firstItem doc = match channels doc with
      | [] => .error .nullPointer
      | channel :: _ => .ok (fromFirst (lit "item") channel.children) := by
  unfold firstItem channels firstChildElement
  rw [← List.head?_filter, filter_nodes]
  cases doc.root.isNamed (lit "rss") with
  | false => rfl
  | true =>
    rw [if_pos rfl, List.head?_cons, List.flatMap_singleton]
    dsimp only
    rw [← List.head?_filter]
    cases doc.root.children.filter (isNamed (lit "channel")) with
    | nil => rfl
    | cons channel others => rfl

/-- The described items of a channel stand behind its first item. -/
theorem describedItems_fromFirst (channel : XMLNode) :
    describedItems channel = (fromFirst (lit "item") channel.children).filter fun node =>
      node.isNamed (lit "item") && isDescribed node := by
  unfold describedItems fromFirst
  generalize channel.children = children
  induction children with
  | nil => rfl
  | cons node children ih =>
    cases hnamed : node.isNamed (lit "item") with
    | true => rw [List.dropWhile_cons_of_neg (by rw [hnamed]; decide)]
    | false =>
      rw [List.dropWhile_cons_of_pos (by rw [hnamed]; rfl), ← ih, List.filter_cons, hnamed]
      rfl

/-- `processFile` by the items with their nodes. -/
theorem processFile_eq (doc : XMLDocument) (rss : List RssItem) (docId : Nat)
    (pageLib : List WebPage) :
    processFile doc rss docId pageLib = (parseTraced doc >>= fun items =>
      .ok (rss ++ items.map Prod.snd, dump docId (rss ++ items.map Prod.snd) pageLib)) := by
  unfold processFile parseRss parseTraced
  simp only [traversingTraced_snd, bind_assoc, Except.ok_bind]

/-- **Which feeds are extracted**: the regular ones. -/
theorem extracts_iff (doc : XMLDocument) : Extracts doc ↔ Regular doc := by
  constructor
  · rintro ⟨items, hparse, hnodes, -, -⟩
    unfold parseTraced at hparse
    rw [firstItem_eq] at hparse
    cases hchannels : channels doc with
    | nil =>
      rw [hchannels] at hparse
      cases hparse
    | cons channel others =>
      rw [hchannels] at hparse
      obtain ⟨hreadable, hkept, -⟩ := of_traversingTraced hparse
      unfold feedItems at hnodes
      rw [hkept, hchannels, List.flatMap_cons] at hnodes
      -- what was kept is among the items of the document
      have hitem : ∀ node ∈ fromFirst (lit "item") channel.children, isDescribed node = true →
          node.isNamed (lit "item") = true := by
        intro node hnode hdescribed
        have hmem : node ∈ describedItems channel ++ others.flatMap describedItems := by
          rw [← hnodes]
          exact List.mem_filter.mpr ⟨hnode, hdescribed⟩
        have hany : ∃ c, node ∈ describedItems c := by
          rcases List.mem_append.mp hmem with hfirst | hlater
          · exact ⟨channel, hfirst⟩
          · obtain ⟨c, -, hc⟩ := List.mem_flatMap.mp hlater
            exact ⟨c, hc⟩
        obtain ⟨c, hc⟩ := hany
        exact (Bool.and_eq_true_iff.mp (List.mem_filter.mp hc).2).1
      refine ⟨channel, others, hchannels, fun node hnode => ⟨hreadable node hnode, hitem node hnode⟩, ?_⟩
      have hfirst : (fromFirst (lit "item") channel.children).filter isDescribed =
          describedItems channel := by
        rw [describedItems_fromFirst]
        apply List.filter_congr
        intro node hnode
        cases hdescribed : isDescribed node with
        | false => rw [Bool.and_false]
        | true => rw [hitem node hnode hdescribed, Bool.and_self]
      rw [hfirst] at hnodes
      exact List.flatMap_eq_nil_iff.mp (List.append_right_eq_self.mp hnodes.symm)
  · rintro ⟨channel, others, hchannels, hall, hothers⟩
    obtain ⟨items, hitems⟩ := traversingTraced_of_readable fun node hnode => (hall node hnode).1
    have hparse : parseTraced doc = .ok items := by
      unfold parseTraced
      rw [firstItem_eq, hchannels]
      exact hitems
    obtain ⟨-, hkept, hfields⟩ := of_traversingTraced hitems
    refine ⟨items, hparse, ?_, hfields, fun rss docId pageLib => ?_⟩
    · unfold feedItems
      rw [hkept, hchannels, List.flatMap_cons, List.flatMap_eq_nil_iff.mpr hothers, List.append_nil,
        describedItems_fromFirst]
      apply List.filter_congr
      intro node hnode
      cases hdescribed : isDescribed node with
      | false => rw [Bool.and_false]
      | true => rw [(hall node hnode).2 hdescribed, Bool.and_self]
    · rw [processFile_eq, hparse]
      rfl

/-- A document of nothing but its root. -/
def ofRoot (name : Str) (children : List XMLNode) : XMLDocument where
  prolog := []
  root := .element name children
  epilog := []
  root_isElement := rfl
  prolog_noElement := fun _ h => absurd h List.not_mem_nil
  epilog_noElement := fun _ h => absurd h List.not_mem_nil

/-- A document that is no feed, an item with an empty title, and a text input behind an item. -/
theorem not_extracted :
    ¬ Extracts (ofRoot (lit "html") []) ∧
    ¬ Extracts (ofRoot (lit "rss") [.element (lit "channel") [.element (lit "item")
      [.element (lit "title") [], .element (lit "description") [.text (lit "a")]]]]) ∧
    ¬ Extracts (ofRoot (lit "rss") [.element (lit "channel")
      [.element (lit "item") [.element (lit "description") [.text (lit "a")]],
        .element (lit "textInput") [.element (lit "description") [.text (lit "b")]]]]) := by
  refine ⟨?_, ?_, ?_⟩
  · rintro ⟨items, hparse, -⟩
    cases hparse
  · rintro ⟨items, hparse, -⟩
    cases hparse
  · rintro ⟨items, hparse, hnodes, -⟩
    obtain ⟨-, hkept, -⟩ := of_traversingTraced hparse
    have htwo := congrArg List.length (hkept.symm.trans hnodes)
    revert htwo
    decide

end RssReader

end LightSearch
