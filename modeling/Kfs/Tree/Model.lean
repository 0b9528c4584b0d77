import Kfs.Base
import Kfs.Lib.LowerBound

/-!
# The search tree of the metadata server

`kfstree.h` and `kfstree.cc`: a B+ tree of nodes in a heap, each linked to the following node of
its level. A failed assertion, a walk through a null pointer and an exhausted loop are `none`; a
node never gets the address of a deleted one.

* `Node`: keys and children side by side (`Entry`), the level-one flag, the peer pointer;
* `Tree.insert`: full nodes are split on the way down (`Tree.split`, `Tree.pushroot`);
* `Tree.del`: descent with the path remembered, scan over equal keys (`delScan`, `shift_path`),
  key repair (`fixKeys`), merging and borrowing on the way up (`rebalance`), `Tree.poproot`;
* `Tree.findLeaf`, `Tree.extractAll`: lookup of all items with a key.
-/

namespace Kfs

open Lib

/-- The address of a node. -/
abbrev NodeId := ℕ

/-- A child pointer: a node below, or a metadata item (`none`: the item of the sentinel). -/
inductive Child
  | node (n : NodeId)
  | leaf (m : Option Meta)
  deriving DecidableEq

/-- The node a child pointer denotes. -/
def Child.node? : Child → Option NodeId
  | .node n => some n
  | .leaf _ => none

/-- `childKey[i]` and `childNode[i]`. -/
structure Entry where
  key : Key
  child : Child
  deriving DecidableEq

/-- An internal node; `entry` holds the first `count` keys and children. -/
structure Node where
  level1 : Bool
  root : Bool
  entry : List Entry
  next : Option NodeId
  deriving DecidableEq

/-- The most children of a node. -/
def NKEY : ℕ := 32

/-- How many children a split moves to the new node. -/
def NSPLIT : ℕ := NKEY / 2

/-- The fewest children of a node that is not underfull. -/
def NFEWEST : ℕ := NKEY - NSPLIT

namespace Node

/-- How many children. -/
def count (n : Node) : ℕ := n.entry.length

/-- The rightmost key. -/
def key (n : Node) : Key := (n.entry.getLast?.map Entry.key).getD ⟨.uninit, 0, 0⟩

def isfull (n : Node) : Bool := decide (n.count = NKEY)

def isdepleted (n : Node) : Bool := decide (n.count < NFEWEST)

/-- Half of what a node holds above the fewest. -/
def excess (n : Node) : ℤ := Int.tdiv ((n.count : ℤ) - NFEWEST) 2

/-- The position of the first key `≥ test`; can be off the end. -/
def findplace (n : Node) (test : Key) : ℕ := lowerBound (fun e => e.key.lt test) n.entry

/-- `child(p)`. -/
def child (n : Node) (p : ℕ) : Option NodeId := n.entry[p]?.bind fun e => e.child.node?

def leftNeighbor (n : Node) (pos : ℕ) : Option NodeId := if pos = 0 then none else n.child (pos - 1)

def rightNeighbor (n : Node) (pos : ℕ) : Option NodeId :=
  if pos + 1 = n.count then none else n.child (pos + 1)

/-- `openHole(pos, skip)` and the stores that fill the hole with `es`. -/
def openHole (n : Node) (pos : ℕ) (es : List Entry) : Option Node :=
  if n.count + es.length ≤ NKEY then
    some { n with entry := n.entry.take pos ++ es ++ n.entry.drop pos }
  else none

/-- `closeHole(pos, skip)`. -/
def closeHole (n : Node) (pos skip : ℕ) : Option Node :=
  if skip < n.count then
    some { n with entry := n.entry.take pos ++ n.entry.drop (pos + skip) }
  else none

def addChild (n : Node) (k : Key) (c : Child) (pos : ℕ) : Option Node := n.openHole pos [⟨k, c⟩]

/-- Insert a metadata item. -/
def insertData (n : Node) (k : Key) (m : Option Meta) (pos : ℕ) : Option Node :=
  if n.level1 then n.addChild k (.leaf m) pos else none

/-- Remove a metadata item. -/
def remove (n : Node) (pos : ℕ) : Option Node := if pos < n.count then n.closeHole pos 1 else none

/-- Overwrite `childKey[pos]`. -/
def setKey (n : Node) (pos : ℕ) (k : Key) : Node :=
  { n with entry := n.entry.modify pos fun e => { e with key := k } }

end Node

/-- The tree: nodes by address, the next unused address, the root, the leftmost level-one node and
the height. -/
structure Tree where
  heap : NodeId → Node
  fresh : NodeId
  root : NodeId
  first : NodeId
  hgt : ℕ

/-- A step of a remembered descent: a node and the index of the child taken. -/
abbrev Pathlink := NodeId × ℕ

namespace Tree

/-- Store a node. -/
def set (t : Tree) (n : NodeId) (nd : Node) : Tree := { t with heap := Function.update t.heap n nd }

/-- `Tree::Tree`: a root holding only the sentinel. -/
def init : Tree where
  heap _ := { level1 := true, root := true, entry := [⟨Key.sentinel, .leaf none⟩], next := none }
  fresh := 1
  root := 0
  first := 0
  hgt := 1

/-- `Node::resetKey` of node `f`. -/
def resetKey (t : Tree) (f : NodeId) (pos : ℕ) : Option Tree := do
  let c ← (t.heap f).child pos
  return t.set f ((t.heap f).setKey pos (t.heap c).key)

/-- Push a new root above the root and its new sibling. -/
def pushroot (t : Tree) (brother : NodeId) : Option Tree := do
  let r := t.root
  let t := t.set r { t.heap r with root := false }
  let t := t.set brother { t.heap brother with root := false }
  let newroot : Node := { level1 := false, root := true, entry := [], next := none }
  let newroot ← newroot.addChild (t.heap r).key (.node r) 0
  let newroot ← newroot.addChild (t.heap brother).key (.node brother) 1
  let t := { t with fresh := t.fresh + 1, root := t.fresh, hgt := t.hgt + 1,
                    heap := Function.update t.heap t.fresh newroot }
  return t

/-- `Node::split` of node `n`, child `pos` of `father`; the result has the new sibling. -/
def split (t : Tree) (n : NodeId) (father : Option NodeId) (pos : ℕ) : Option (Tree × NodeId) := do
  let b := t.fresh
  let nd := t.heap n
  let brother := { nd with entry := (nd.entry.drop (nd.count - NSPLIT)).take NSPLIT }
  let t := ({ t with fresh := b + 1 }).set b brother
  let t := t.set n { nd with entry := nd.entry.take (nd.count - NSPLIT), next := some b }
  match father with
  | none =>
    if t.root = n then
      let t ← t.pushroot b
      return (t, b)
    else none
  | some f =>
    if (t.heap f).isfull then none
    else if (t.heap f).child pos ≠ some n then none
    else
      let t ← t.resetKey f pos
      let f' ← (t.heap f).addChild (t.heap b).key (.node b) (1 + pos)
      return (t.set f f', b)

/-- One turn of the descent of `Tree::insert`: find the place in `n`, splitting `n` if it is
full. -/
def insertTurn (t : Tree) (mkey : Key) (n : NodeId) (dad : Option NodeId) (dpos : ℕ) :
    Option (Tree × NodeId × ℕ) := do
  let cpos := (t.heap n).findplace mkey
  if (t.heap n).isfull then
    let (t, b) ← t.split n dad dpos
    if cpos ≥ (t.heap n).count then return (t, b, (t.heap b).findplace mkey)
    else return (t, n, cpos)
  else return (t, n, cpos)

/-- The descent of `Tree::insert` to the level-one node and the place in it. -/
def insertLoop (t : Tree) (mkey : Key) : ℕ → NodeId → Option NodeId → ℕ → Option (Tree × NodeId × ℕ)
  | 0, _, _, _ => none
  | fuel + 1, n, dad, dpos =>
    match t.insertTurn mkey n dad dpos with
    | none => none
    | some (t, n, cpos) =>
      if (t.heap n).level1 then some (t, n, cpos)
      else
        match (t.heap n).child cpos with
        | none => none
        | some c => insertLoop t mkey fuel c (some n) cpos

/-- `Tree::insert`; it always returns 0. -/
def insert (t : Tree) (item : Meta) : Option Tree := do
  let mkey := item.key
  let (t, n, cpos) ← t.insertLoop mkey t.hgt t.root none 0
  let nd ← (t.heap n).insertData mkey (some item) cpos
  return t.set n nd

/-- The descent of `Tree::findLeaf`. -/
def findLeafLoop (t : Tree) (k : Key) : ℕ → NodeId → Option (NodeId × ℕ)
  | 0, _ => none
  | fuel + 1, n =>
    let p := (t.heap n).findplace k
    if ¬ (t.heap n).level1 ∧ p ≠ (t.heap n).count then
      match (t.heap n).child p with
      | none => none
      | some c => findLeafLoop t k fuel c
    else some (n, p)

/-- `Tree::findLeaf`: the level-one node with the first instance of `k`, if there is one. -/
def findLeaf (t : Tree) (k : Key) : Option (Option NodeId) := do
  let (n, p) ← t.findLeafLoop k t.hgt t.root
  match (t.heap n).entry[p]? with
  | none => return none
  | some e => return if e.key.eqv k then some n else none

/-- `extractAll` from position `p` of node `n`. -/
def extractAllLoop (t : Tree) (k : Key) : ℕ → NodeId → ℕ → Option (List Meta)
  | 0, _, _ => none
  | fuel + 1, n, p =>
    match (t.heap n).entry[p]? with
    | none => none
    | some e =>
      if e.key.eqv k then
        match e.child with
        | .leaf (some m) =>
          if p + 1 = (t.heap n).count then
            match (t.heap n).next with
            | none => some [m]
            | some n' => (extractAllLoop t k fuel n' 0).map (m :: ·)
          else (extractAllLoop t k fuel n (p + 1)).map (m :: ·)
        | _ => none
      else some []

/-- `extractAll`: all items with key `k`, from the node that has the first. -/
def extractAll (t : Tree) (n : NodeId) (k : Key) : Option (List Meta) :=
  t.extractAllLoop k ((t.fresh + 1) * NKEY) n ((t.heap n).findplace k)

/-- The descent of `Tree::del`; the head of the path is its last link. -/
def delDescend (t : Tree) (mkey : Key) : ℕ → NodeId → List Pathlink →
    Option (List Pathlink × NodeId × ℕ)
  | 0, _, _ => none
  | fuel + 1, n, path =>
    let pos := (t.heap n).findplace mkey
    if (t.heap n).level1 then some (path, n, pos)
    else if pos = (t.heap n).count then none
    else
      match (t.heap n).child pos with
      | none => none
      | some c => delDescend t mkey fuel c ((n, pos) :: path)

/-- `Tree::shift_path`: move the path to the next node of the level below it. -/
def shift_path (t : Tree) : List Pathlink → Option (List Pathlink)
  | [] => none
  | (n, pos) :: path =>
    if pos + 1 ≠ (t.heap n).count then some ((n, pos + 1) :: path)
    else
      match (t.heap n).next, shift_path t path with
      | some n', some path => some ((n', 0) :: path)
      | _, _ => none

/-- The scan of `Tree::del` over the items with key `mkey` for one that `m` matches. The outer
`none` is a fault, the inner one says that there is none. -/
def delScan (t : Tree) (m : Meta) : ℕ → NodeId → ℕ → List Pathlink →
    Option (Option (NodeId × ℕ × List Pathlink))
  | 0, _, _, _ => none
  | fuel + 1, n, pos, path =>
    match (t.heap n).entry[pos]? with
    | none => none
    | some e =>
      if m.key.eqv e.key then
        match e.child with
        | .leaf (some x) =>
          if m.matchItem x then some (some (n, pos, path))
          else if pos + 1 = (t.heap n).count then
            match (t.heap n).next, t.shift_path path with
            | some n', some path => delScan t m fuel n' 0 path
            | _, _ => none
          else delScan t m fuel n (pos + 1) path
        | _ => none
      else some none

/-- After the removal of a rightmost item, repair the keys of its ancestors; stop at a child that
is not rightmost. -/
def fixKeys (t : Tree) : List Pathlink → Option Tree
  | [] => some t
  | (dad, pos) :: path =>
    match t.resetKey dad pos with
    | none => none
    | some t => if pos + 1 ≠ (t.heap dad).count then some t else fixKeys t path

/-- `n->absorb(l)`: node `n` is absorbed by its left neighbour `l`. -/
def absorb (t : Tree) (n l : NodeId) : Option Tree :=
  if (t.heap n).count + (t.heap l).count ≤ NKEY then
    let t := t.set l { t.heap l with entry := (t.heap l).entry ++ (t.heap n).entry,
                                     next := (t.heap n).next }
    some (t.set n { t.heap n with entry := [] })
  else none

/-- The end of `mergeNeighbor`: drop the absorbed child `base + 1` of `dad`. -/
def dropAbsorbed (t : Tree) (dad : NodeId) (base : ℕ) : Option Tree := do
  let e ← (t.heap dad).entry[base + 1]?
  let nd ← ((t.heap dad).setKey base e.key).closeHole (base + 1) 1
  return t.set dad nd

/-- `Node::mergeNeighbor`: join the underfull child `pos` of `dad` with a neighbour. -/
def mergeNeighbor (t : Tree) (dad : NodeId) (pos : ℕ) : Option (Tree × Bool) :=
  if (t.heap dad).level1 then none
  else
    match (t.heap dad).child pos with
    | none => none
    | some middle =>
      let mkids := (t.heap middle).count
      match (t.heap dad).leftNeighbor pos, (t.heap dad).rightNeighbor pos with
      | some left, right =>
        if mkids + (t.heap left).count < NKEY then do
          let t ← t.absorb middle left
          let t ← t.dropAbsorbed dad (pos - 1)
          return (t, true)
        else
          match right with
          | some right =>
            if mkids + (t.heap right).count < NKEY then do
              let t ← t.absorb right middle
              let t ← t.dropAbsorbed dad pos
              return (t, true)
            else some (t, false)
          | none => some (t, false)
      | none, some right =>
        if mkids + (t.heap right).count < NKEY then do
          let t ← t.absorb right middle
          let t ← t.dropAbsorbed dad pos
          return (t, true)
        else some (t, false)
      | none, none => some (t, false)

/-- Move `nshift` children from the right end of `n` to the beginning of `dest`. -/
def shiftRight (t : Tree) (n dest : NodeId) (nshift : ℕ) : Option Tree := do
  let nd := t.heap n
  let d ← (t.heap dest).openHole 0 (nd.entry.drop (nd.count - nshift))
  let t := t.set dest d
  return t.set n { nd with entry := nd.entry.take (nd.count - nshift) }

/-- Move `nshift` children from the beginning of `n` to the end of `dest`. -/
def shiftLeft (t : Tree) (n dest : NodeId) (nshift : ℕ) : Option Tree := do
  let nd := t.heap n
  let t := t.set dest { t.heap dest with entry := (t.heap dest).entry ++ nd.entry.take nshift }
  let nd ← nd.closeHole 0 nshift
  return t.set n nd

/-- `Node::balanceNeighbor`: fill the underfull child `pos` of `dad` from a neighbour. -/
def balanceNeighbor (t : Tree) (dad : NodeId) (pos : ℕ) : Option (Tree × Bool) :=
  if (t.heap dad).level1 then none
  else
    match (t.heap dad).child pos with
    | none => none
    | some middle =>
      let left := (t.heap dad).leftNeighbor pos
      let right := (t.heap dad).rightNeighbor pos
      let lc : ℤ := match left with
        | none => -1
        | some l => (t.heap l).count
      let rc : ℤ := match right with
        | none => -1
        | some r => (t.heap r).count
      match (if lc ≥ rc then left else right) with
      | none => some (t, false)
      | some donor =>
        let nmove := (t.heap donor).excess
        if nmove ≤ 0 then some (t, false)
        else if nmove + (t.heap middle).count ≤ NKEY then
          if some donor = left then do
            let t ← t.shiftRight donor middle nmove.toNat
            let t ← t.resetKey dad (pos - 1)
            return (t, true)
          else do
            let t ← t.shiftLeft donor middle nmove.toNat
            let t ← t.resetKey dad pos
            return (t, true)
        else none

/-- Go back up the path, merging or filling underfull nodes; stop at the first success. The
result has the parent whose children were rearranged. -/
def rebalance (t : Tree) : NodeId → List Pathlink → Option (Tree × Option NodeId)
  | _, [] => some (t, none)
  | n, (dad, pos) :: path =>
    if (t.heap dad).child pos ≠ some n then none
    else if (t.heap n).isdepleted then
      match t.mergeNeighbor dad pos with
      | none => none
      | some (t, true) => some (t, some dad)
      | some (t, false) =>
        match t.balanceNeighbor dad pos with
        | none => none
        | some (t, true) => some (t, some dad)
        | some (t, false) => rebalance t dad path
    else rebalance t dad path

/-- Get rid of a root with only one child. -/
def poproot (t : Tree) : Option Tree :=
  if ¬ (t.heap t.root).level1 ∧ (t.heap t.root).count = 1 then do
    let c ← (t.heap t.root).child 0
    return { t with root := c, hgt := t.hgt - 1 }
  else some t

/-- The part of `Tree::del` after a match was found at `pos` of `n`. -/
def delAt (t : Tree) (n : NodeId) (pos : ℕ) (path : List Pathlink) : Option Tree := do
  let nd ← (t.heap n).remove pos
  let t := t.set n nd
  let t ← if pos = (t.heap n).count then t.fixKeys path else some t
  let (t, dad) ← t.rebalance n path
  if dad = some t.root then t.poproot else some t

/-- `Tree::del`: 0 if an item matching `m` was deleted, -1 if there is none. -/
def del (t : Tree) (m : Meta) : Option (Tree × ℤ) := do
  let (path, n, pos) ← t.delDescend m.key t.hgt t.root []
  match ← t.delScan m ((t.fresh + 1) * NKEY) n pos path with
  | none => return (t, -1)
  | some (n, pos, path) =>
    let t ← t.delAt n pos path
    return (t, 0)

end Tree

end Kfs
