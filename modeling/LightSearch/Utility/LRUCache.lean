import LightSearch.Lib.Cxx
import LightSearch.Lib.Run
import Mathlib.Logic.Function.Basic

/-!
# The LRU cache of one worker

`LRUCache` keeps its entries in a list, the most recently used first, and for each key an iterator
into that list. The model keeps what makes the C++ class delicate: a list node has an identity of
its own (`Node.addr`), an iterator names a node and not a position, and using an iterator whose node
was erased is a fault. An address is given to one node only, so an iterator to an erased node never
comes to life again.

A method is a function from the object to the object after the call. Calls that name a second cache
(`update`, `mergePendingList`) are given on a family of caches (`Caches`), where the second may be
the first.
-/

set_option autoImplicit false

namespace LightSearch

open Cxx

/-- A node of `_cachedData`: its address and the pair it holds. -/
structure Node where
  addr : Nat
  elem : Str × Str
  deriving DecidableEq

/-- `listIter`: an iterator to a node, or `_cachedData.end()`. -/
inductive ListIter where
  | node (addr : Nat)
  | atEnd
  deriving DecidableEq

/-- The data members of an `LRUCache`, and the address its next node gets. -/
structure LRUCache where
  capacity : Nat
  cachedData : List Node
  hashmap : Str → Option ListIter
  pendingUpdateList : List (Str × Str)
  nextAddr : Nat

namespace LRUCache

/-- The constructor. -/
def new (capacity : Nat) : LRUCache :=
  { capacity := capacity, cachedData := [], hashmap := fun _ => none, pendingUpdateList := [],
    nextAddr := 0 }

/-- The pairs of `_cachedData`, in order. -/
def entries (c : LRUCache) : List (Str × Str) := c.cachedData.map Node.elem

/-- The keys of `_cachedData`, in order. -/
def keys (c : LRUCache) : List Str := c.cachedData.map fun n => n.elem.1

/-! ## Operations of the list and the map -/

/-- `_cachedData.begin()`. -/
def begin (c : LRUCache) : ListIter :=
  match c.cachedData with
  | [] => .atEnd
  | n :: _ => .node n.addr

/-- `*it`. -/
def deref (c : LRUCache) (it : ListIter) : Except Fault (Str × Str) :=
  match it with
  | .atEnd => .error .danglingIterator
  | .node addr =>
    match c.cachedData.find? (fun n => n.addr = addr) with
    | none => .error .danglingIterator
    | some n => .ok n.elem

/-- `_cachedData.erase(it)`. -/
def erase (c : LRUCache) (it : ListIter) : Except Fault LRUCache :=
  match it with
  | .atEnd => .error .danglingIterator
  | .node addr =>
    if addr ∈ c.cachedData.map Node.addr then
      .ok { c with cachedData := c.cachedData.filter fun n => n.addr ≠ addr }
    else .error .danglingIterator

/-- `_cachedData.push_front(elem)` and `_cachedData.emplace_front(elem)`. -/
def pushFront (c : LRUCache) (elem : Str × Str) : LRUCache :=
  { c with cachedData := { addr := c.nextAddr, elem := elem } :: c.cachedData,
           nextAddr := c.nextAddr + 1 }

/-- `_cachedData.front()`. -/
def front (c : LRUCache) : Except Fault (Str × Str) :=
  match c.cachedData with
  | [] => .error .danglingIterator
  | n :: _ => .ok n.elem

/-- `_cachedData.back()`. -/
def back (c : LRUCache) : Except Fault (Str × Str) :=
  match c.cachedData.getLast? with
  | none => .error .danglingIterator
  | some n => .ok n.elem

/-- `_hashmap[key] = _cachedData.begin()`. -/
def mapBegin (c : LRUCache) (key : Str) : LRUCache :=
  { c with hashmap := Function.update c.hashmap key (some c.begin) }

/-- `_hashmap.erase(key)`. -/
def unmap (c : LRUCache) (key : Str) : LRUCache :=
  { c with hashmap := Function.update c.hashmap key none }

/-! ## The methods -/

def keyExist (c : LRUCache) (key : Str) : ListIter :=
  match c.hashmap key with
  | none => .atEnd
  | some it => it

def get (c : LRUCache) (key : Str) : Except Fault (LRUCache × Str) :=
  match c.keyExist key with
  | .atEnd => .ok (c, [])
  | .node addr => do
    let elem ← c.deref (.node addr)
    let c ← c.erase (.node addr)
    let c := (c.pushFront elem).mapBegin elem.1
    let c := { c with pendingUpdateList := elem :: c.pendingUpdateList }
    let front ← c.front
    .ok (c, front.2)

/-- The insertion of `put` when the key is not there: the last element goes when there are too many.
-/
def insertFront (c : LRUCache) (key val : Str) : Except Fault LRUCache :=
  let c := c.pushFront (key, val)
  if c.cachedData.length > c.capacity then do
    let lastElem ← c.back
    let c := c.unmap lastElem.1
    .ok { c with cachedData := c.cachedData.dropLast }
  else .ok c

/-- The replacement of `put` when the key is there. -/
def replaceFront (c : LRUCache) (addr : Nat) (key val : Str) : Except Fault LRUCache := do
  let _elem ← c.deref (.node addr)
  let c ← c.erase (.node addr)
  .ok (c.pushFront (key, val))

/-- The last lines of `put`: a cache that is being updated from another does not log the entry. -/
def log (c : LRUCache) (e : Str × Str) (update : Bool) : LRUCache :=
  if update then c else { c with pendingUpdateList := e :: c.pendingUpdateList }

def put (c : LRUCache) (key val : Str) (update : Bool) : Except Fault LRUCache := do
  let c ← match c.keyExist key with
    | .node addr => c.replaceFront addr key val
    | .atEnd => c.insertFront key val
  .ok ((c.mapBegin key).log (key, val) update)

/-- `update(rhs)` with `pending` the `_pendingUpdateList` of `rhs`: its newest entry is at the front,
so the loop goes from the back. The puts do not log, so that the list is the same all along, also
when `rhs` is the cache itself. -/
def update (c : LRUCache) (pending : List (Str × Str)) : Except Fault LRUCache :=
  pending.reverse.foldlM (fun c e => c.put e.1 e.2 true) c

/-- The loop of `mergePendingList`: the front of `rhs` moves to the back of `pending`. -/
def mergeLoop (pending : List (Str × Str)) : List (Str × Str) → List (Str × Str)
  | [] => pending
  | e :: rhs => mergeLoop (pending ++ [e]) rhs

def clearPendingList (c : LRUCache) : LRUCache := { c with pendingUpdateList := [] }

end LRUCache

/-! ## Several caches -/

/-- A family of caches, as the vector of the cache manager. -/
abbrev Caches (n : Nat) := Fin n → LRUCache

namespace Caches

variable {n : Nat}

def get (caches : Caches n) (i : Fin n) (key : Str) : Except Fault (Caches n × Str) := do
  let (c, val) ← (caches i).get key
  .ok (Function.update caches i c, val)

def put (caches : Caches n) (i : Fin n) (key val : Str) (update : Bool) :
    Except Fault (Caches n) := do
  let c ← (caches i).put key val update
  .ok (Function.update caches i c)

/-- `caches[i].update(caches[other])`. -/
def update (caches : Caches n) (i other : Fin n) : Except Fault (Caches n) := do
  let c ← (caches i).update (caches other).pendingUpdateList
  .ok (Function.update caches i c)

/-- `caches[i].mergePendingList(caches[other])`: a cache is not merged into itself, and the other
one has nothing pending any more. -/
def mergePendingList (caches : Caches n) (i other : Fin n) : Caches n :=
  if i = other then caches
  else
    let pending := LRUCache.mergeLoop (caches i).pendingUpdateList
      (caches other).pendingUpdateList
    Function.update
      (Function.update caches i { caches i with pendingUpdateList := pending })
      other (caches other).clearPendingList

def clearPendingList (caches : Caches n) (i : Fin n) : Caches n :=
  Function.update caches i (caches i).clearPendingList

end Caches

end LightSearch
