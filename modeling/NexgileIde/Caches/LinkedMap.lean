import NexgileIde.Library.LinkedChain
import Mathlib

/-!
# Linked maps and the caches on them

A map whose items are linked in the order in which they were added or touched. An item is known by
its number; its links are kept by these numbers, also after it has left the list. The caches trim the
list at one of its ends when it is longer than their limit.
-/

namespace NexgileIde.Caches

inductive Touch
  | none
  | asOld
  | asNew
  deriving DecidableEq

structure LinkedMap (K V : Type) where
  map : K → Option ℕ
  head : Option ℕ
  tail : Option ℕ
  size : ℤ
  /-- The keys and values of the items that were made, by their numbers. -/
  items : ℕ → Option (K × V)
  next : ℕ → Option ℕ
  previous : ℕ → Option ℕ
  /-- The number of the next item that is made. -/
  nextItem : ℕ

namespace LinkedMap

variable {K V : Type} [DecidableEq K] (m : LinkedMap K V)

def new : LinkedMap K V :=
  ⟨fun _ => none, none, none, 0, fun _ => none, fun _ => none, fun _ => none, 0⟩

def setNext (i : ℕ) (next : Option ℕ) : LinkedMap K V :=
  { m with next := Function.update m.next i next }

def setPrevious (i : ℕ) (previous : Option ℕ) : LinkedMap K V :=
  { m with previous := Function.update m.previous i previous }

def clear : LinkedMap K V := { m with map := fun _ => none, head := none, tail := none, size := 0 }

def has (key : K) : Bool := (m.map key).isSome

section Links

/-- None where the list is invalid, as below. -/
def addItemFirst (i : ℕ) : Option (LinkedMap K V) :=
  match m.head, m.tail with
  | none, none => some { m with head := some i, tail := some i }
  | none, some _ => none
  | some head, _ => some { (m.setNext i (some head)).setPrevious head (some i) with head := some i }

def addItemLast (i : ℕ) : Option (LinkedMap K V) :=
  match m.tail, m.head with
  | none, none => some { m with head := some i, tail := some i }
  | none, some _ => none
  | some tail, _ => some { (m.setPrevious i (some tail)).setNext tail (some i) with tail := some i }

/-- The neighbours of an item that has two are linked with each other. -/
def linkNeighbours (i : ℕ) : Option (LinkedMap K V) :=
  match m.next i, m.previous i with
  | some next, some previous =>
    some ((m.setPrevious next (some previous)).setNext previous (some next))
  | _, _ => none

def unlinkHead (i : ℕ) : Option (LinkedMap K V) :=
  match m.next i with
  | some next => some { m.setPrevious next none with head := some next }
  | none => none

def unlinkTail (i : ℕ) : Option (LinkedMap K V) :=
  match m.previous i with
  | some previous => some { m.setNext previous none with tail := some previous }
  | none => none

def removeItem (i : ℕ) : Option (LinkedMap K V) :=
  let unlinked :=
    if m.head = some i ∧ m.tail = some i then some { m with head := none, tail := none }
    else if m.head = some i then m.unlinkHead i
    else if m.tail = some i then m.unlinkTail i
    else m.linkNeighbours i
  unlinked.map fun m => (m.setNext i none).setPrevious i none

def touchAsOld (i head : ℕ) : Option (LinkedMap K V) :=
  if i = head then some m
  else
    let unlinked := if m.tail = some i then m.unlinkTail i else m.linkNeighbours i
    -- Insert the node at head
    unlinked.map fun m =>
      { ((m.setPrevious i none).setNext i (some head)).setPrevious head (some i) with
        head := some i }

def touchAsNew (i tail : ℕ) : Option (LinkedMap K V) :=
  if i = tail then some m
  else
    let unlinked := if m.head = some i then m.unlinkHead i else m.linkNeighbours i
    unlinked.map fun m =>
      { ((m.setNext i none).setPrevious i (some tail)).setNext tail (some i) with tail := some i }

def touch (i : ℕ) (touch : Touch) : Option (LinkedMap K V) :=
  match m.head, m.tail with
  | some head, some tail =>
    match touch with
    | .none => some m
    | .asOld => m.touchAsOld i head
    | .asNew => m.touchAsNew i tail
  | _, _ => none

end Links

section Entries

def get (key : K) (touch : Touch) : Option (Option V × LinkedMap K V) :=
  match m.map key with
  | none => some (none, m)
  | some i => do
    let item ← m.items i
    (if touch = .none then some m else m.touch i touch).map fun m => (some item.2, m)

def set (key : K) (value : V) (touch : Touch) : Option (LinkedMap K V) :=
  match m.map key with
  | some i =>
    let m := { m with items := Function.update m.items i (some (key, value)) }
    if touch = .none then some m else m.touch i touch
  | none =>
    let i := m.nextItem
    let m := { m with
      items := Function.update m.items i (some (key, value))
      next := Function.update m.next i none
      previous := Function.update m.previous i none
      nextItem := i + 1 }
    let added := if touch = .asOld then m.addItemFirst i else m.addItemLast i
    added.map fun m => { m with map := Function.update m.map key (some i), size := m.size + 1 }

def remove (key : K) : Option (Option V × LinkedMap K V) :=
  match m.map key with
  | none => some (none, m)
  | some i => do
    let item ← m.items i
    (removeItem { m with map := Function.update m.map key none } i).map fun m =>
      (some item.2, { m with size := m.size - 1 })

def shift : Option (Option V × LinkedMap K V) :=
  match m.head, m.tail with
  | none, none => some (none, m)
  | some head, some _ => do
    let item ← m.items head
    (removeItem { m with map := Function.update m.map item.1 none } head).map fun m =>
      (some item.2, { m with size := m.size - 1 })
  | _, _ => none

end Entries

section Trim

/-- The loop of the trims along a link, at most `count` times: the map, the item at which the loop
stops, and how many items were passed. -/
def trimLoop (items : ℕ → Option (K × V)) (link : ℕ → Option ℕ) :
    (count : ℕ) → (current : Option ℕ) → (K → Option ℕ) → (K → Option ℕ) × Option ℕ × ℕ
  | 0, current, map => (map, current, 0)
  | _ + 1, none, map => (map, none, 0)
  | count + 1, some i, map =>
    match items i with
    | none => (map, none, 0)
    | some item =>
      let r := trimLoop items link count (link i) (Function.update map item.1 none)
      (r.1, r.2.1, r.2.2 + 1)

def trimOld (newSize : ℤ) : LinkedMap K V :=
  if m.size ≤ newSize then m
  else if newSize = 0 then m.clear
  else
    let (map, current, removed) := trimLoop m.items m.next (m.size - newSize).toNat m.head m.map
    let m := { m with map, head := current, size := m.size - removed }
    match current with
    | some current => m.setPrevious current none
    | none => m

def trimNew (newSize : ℤ) : LinkedMap K V :=
  if m.size ≤ newSize then m
  else if newSize = 0 then m.clear
  else
    let (map, current, removed) :=
      trimLoop m.items m.previous (m.size - newSize).toNat m.tail m.map
    let m := { m with map, tail := current, size := m.size - removed }
    match current with
    | some current => m.setNext current none
    | none => m

end Trim

end LinkedMap

/-- The calls of a linked map that change it -/
inductive MapOp (K V : Type)
  | set (key : K) (value : V) (touch : Touch)
  | get (key : K) (touch : Touch)
  | remove (key : K)
  | shift
  | clear

section Run

variable {K V : Type} [DecidableEq K]

/-- None where a call throws; `delete` is `remove`. -/
def LinkedMap.step (m : LinkedMap K V) : MapOp K V → Option (LinkedMap K V)
  | .set key value touch => m.set key value touch
  | .get key touch => (m.get key touch).map Prod.snd
  | .remove key => (m.remove key).map Prod.snd
  | .shift => m.shift.map Prod.snd
  | .clear => some m.clear

def LinkedMap.run (ops : List (MapOp K V)) : Option (LinkedMap K V) :=
  ops.foldlM LinkedMap.step .new

end Run

/-- `Math.round` -/
def mathRound (x : ℚ) : ℤ := ⌊x + 1 / 2⌋

inductive CacheKind
  | lru
  | mru
  deriving DecidableEq

structure Cache (K V : Type) where
  kind : CacheKind
  list : LinkedMap K V
  limit : ℚ
  ratio : ℚ

namespace Cache

variable {K V : Type} [DecidableEq K] (c : Cache K V)

def clampRatio (ratio : ℚ) : ℚ := min (max 0 ratio) 1

def new (kind : CacheKind) (limit ratio : ℚ) : Cache K V := ⟨kind, .new, limit, clampRatio ratio⟩

def trim (newSize : ℤ) : Cache K V :=
  match c.kind with
  | .lru => { c with list := c.list.trimOld newSize }
  | .mru => { c with list := c.list.trimNew newSize }

/-- The size to trim to, before rounding down for a new entry -/
def trimSize : ℤ := mathRound (c.limit * c.ratio)

def checkTrim : Cache K V := if c.limit < c.list.size then c.trim c.trimSize else c

def set (key : K) (value : V) : Option (Cache K V) :=
  match c.kind with
  | .lru => (c.list.set key value .asNew).map fun list => { c with list }.checkTrim
  | .mru =>
    let c := if c.limit ≤ c.list.size ∧ !c.list.has key then c.trim (c.trimSize - 1) else c
    (c.list.set key value .asNew).map fun list => { c with list }

def get (key : K) (touch : Touch) : Option (Option V × Cache K V) :=
  (c.list.get key touch).map fun r => (r.1, { c with list := r.2 })

def peek (key : K) : Option (Option V × Cache K V) := c.get key .none

def setLimit (limit : ℚ) : Cache K V := { c with limit }.checkTrim

def setRatio (ratio : ℚ) : Cache K V := { c with ratio := clampRatio ratio }.checkTrim

end Cache

/-- The calls of a cache that change it -/
inductive CacheOp (K V : Type)
  | set (key : K) (value : V)
  | get (key : K) (touch : Touch)
  | peek (key : K)
  | remove (key : K)
  | shift
  | clear
  | setLimit (limit : ℚ)
  | setRatio (ratio : ℚ)

section Run

variable {K V : Type} [DecidableEq K]

def Cache.step (c : Cache K V) : CacheOp K V → Option (Cache K V)
  | .set key value => c.set key value
  | .get key touch => (c.get key touch).map Prod.snd
  | .peek key => (c.peek key).map Prod.snd
  | .remove key => (c.list.remove key).map fun r => { c with list := r.2 }
  | .shift => c.list.shift.map fun r => { c with list := r.2 }
  | .clear => some { c with list := c.list.clear }
  | .setLimit limit => some (c.setLimit limit)
  | .setRatio ratio => some (c.setRatio ratio)

def Cache.run (kind : CacheKind) (limit ratio : ℚ) (ops : List (CacheOp K V)) :
    Option (Cache K V) :=
  ops.foldlM Cache.step (.new kind limit ratio)

end Run

end NexgileIde.Caches
