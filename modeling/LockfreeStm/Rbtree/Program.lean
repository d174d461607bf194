/-
  File:      LockfreeStm/Rbtree/Program.lean
  Subject:   THE RED-BLACK TREE OF `containers/rbtree.hpp`, as programs over vars.

  A tree is its `root_` and, for each node, the six vars of `rb_node_`. Every member function is a
  program of tracked and untracked gets and of sets; a dereference of a null pointer stops it. The
  source's loops and its upward recursion are bounded by `fuel`, and a program that runs out stops
  with `outOfFuel`: the theorems show that it does not.

  The left and the right case of a rotation are one definition with a side. So are `left_` and
  `right_`: they are the vars `.child .left n` and `.child .right n`.
-/
import LockfreeStm.Library.Optimistic

namespace LockfreeStm

namespace Rbtree

/-! ## 1. Nodes -/

/-- `detail::color`. -/
inductive Color where
  | red
  | black
deriving DecidableEq

/-- Which child. -/
inductive Side where
  | left
  | right
deriving DecidableEq

/-- The other side. -/
def Side.other : Side → Side
  | .left => .right
  | .right => .left

/-- The downward links: `root_`, and `left_` and `right_` of a node. -/
inductive Link (Ptr : Type) where
  | root
  | child (d : Side) (n : Ptr)
deriving DecidableEq

/-- The vars of a tree: its links, and the others of every `rb_node_`. -/
inductive Var (Ptr : Type) where
  | link (l : Link Ptr)
  | parent (n : Ptr)
  | color (n : Ptr)
  | key (n : Ptr)
  | value (n : Ptr)
deriving DecidableEq

/-- `root_`. -/
abbrev Var.root {Ptr : Type} : Var Ptr := .link .root

/-- `left_` or `right_`. -/
abbrev Var.child {Ptr : Type} (d : Side) (n : Ptr) : Var Ptr := .link (.child d n)

/-- What a var holds. -/
@[reducible] def Content (Ptr Key Value : Type) : Var Ptr → Type
  | .link _ => Option Ptr
  | .parent _ => Option Ptr
  | .color _ => Color
  | .key _ => Key
  | .value _ => Value

/-- Why a program stops. -/
inductive Stop where
  | nullDereference
  | assertFailed
  | outOfFuel
deriving DecidableEq

/-- The memory of a tree. -/
abbrev Memory (Ptr Key Value : Type) := Optimistic.Memory (Content Ptr Key Value)

/-- A program over a tree; the objects it retires are nodes. -/
abbrev Program (Ptr Key Value : Type) := Optimistic.Program (Content Ptr Key Value) Ptr Stop

variable {Ptr Key Value : Type}

/-! ## 2. Accesses -/

/-- A pointer about to be dereferenced. -/
def deref : Option Ptr → Program Ptr Key Value Ptr
  | some n => .ret n
  | none => .halt .nullDereference

/-- `LSTM_ASSERT`. -/
def assert (b : Bool) : Program Ptr Key Value Unit :=
  if b then .ret () else .halt .assertFailed

/-- `var::get`, of each kind of var. -/
def getLink (l : Link Ptr) : Program Ptr Key Value (Option Ptr) := .get (.link l) .ret
def getParent (n : Ptr) : Program Ptr Key Value (Option Ptr) := .get (.parent n) .ret
def getColor (n : Ptr) : Program Ptr Key Value Color := .get (.color n) .ret
def getKey (n : Ptr) : Program Ptr Key Value Key := .get (.key n) .ret
def getValue (n : Ptr) : Program Ptr Key Value Value := .get (.value n) .ret

/-- `get` of `root_`, of `left_` and of `right_`. -/
abbrev getRoot : Program Ptr Key Value (Option Ptr) := getLink .root
abbrev getChild (d : Side) (n : Ptr) : Program Ptr Key Value (Option Ptr) := getLink (.child d n)

/-- `var::untracked_get` through the transaction's checked demotion: it sees the transaction's own
    writes. -/
def untrackedLink (l : Link Ptr) : Program Ptr Key Value (Option Ptr) :=
  .untrackedGet (.link l) .ret
def untrackedKey (n : Ptr) : Program Ptr Key Value Key := .untrackedGet (.key n) .ret

/-- `var::unsafe_get` of a new node's key: nothing is pending for it. -/
def unsafeKey (n : Ptr) : Program Ptr Key Value Key := .untrackedGet (.key n) .ret

/-- `var::set`. -/
def set (v : Var Ptr) (x : Content Ptr Key Value v) : Program Ptr Key Value Unit :=
  .set v x (.ret ())

/-- `var::unsafe_set`, of a new node, and the constructors of its vars. -/
def unsafeSet (v : Var Ptr) (x : Content Ptr Key Value v) : Program Ptr Key Value Unit :=
  .unsafeSet v x (.ret ())

/-- `lstm::destroy_deallocate`. -/
def destroyDeallocate (n : Ptr) : Program Ptr Key Value Unit := .retire n (.ret ())

variable [DecidableEq Ptr]

/-! ## 3. Relatives and rotations -/

/-- `grandparent`. -/
def grandparent (n : Option Ptr) : Program Ptr Key Value (Option Ptr) :=
  match n with
  | none => pure none
  | some n => do
    let parent ← getParent n
    match parent with
    | none => pure none
    | some parent => getParent parent

/-- `uncle`. -/
def uncle (n : Ptr) : Program Ptr Key Value (Option Ptr) := do
  let g ← grandparent (some n)
  match g with
  | none => pure none
  | some g => do
    let left ← getChild .left g
    let parent ← getParent n
    if parent = left then getChild .right g else pure left

/-- `sibling`. -/
def sibling (parent n : Option Ptr) : Program Ptr Key Value (Option Ptr) :=
  match parent with
  | none => pure none
  | some parent => do
    let pLeft ← getChild .left parent
    if n = pLeft then getChild .right parent else pure pLeft

/-- `if (q) q->parent_.set(tx, parent)`. -/
def setParentOf (q parent : Option Ptr) : Program Ptr Key Value Unit :=
  match q with
  | some q => set (.parent q) parent
  | none => pure ()

/-- `parent && parent->left_.get(tx) == n`. -/
def isLeftChild (parent : Option Ptr) (n : Ptr) : Program Ptr Key Value Bool :=
  match parent with
  | some parent => do
    let pLeft ← getChild .left parent
    pure (decide (pLeft = some n))
  | none => pure false

/-- `rotate_left` and `rotate_right`: the child opposite to side `d` goes up, and `n` becomes its
    child on side `d`. -/
def rotate (d : Side) (n : Ptr) : Program Ptr Key Value Unit := do
  let p ← getChild d.other n
  let p ← deref p
  let pInner ← getChild d p
  let nParent ← getParent n
  let left ← isLeftChild nParent n
  set (.child d.other n) pInner
  setParentOf pInner (some n)
  set (.child d p) (some n)
  set (.parent n) (some p)
  set (.parent p) nParent
  match nParent with
  | none => set .root (some p)
  | some nParent =>
    if left then set (.child .left nParent) (some p) else set (.child .right nParent) (some p)

/-- `rotate_left`. -/
def rotateLeft (n : Ptr) : Program Ptr Key Value Unit := rotate .left n

/-- `rotate_right`. -/
def rotateRight (n : Ptr) : Program Ptr Key Value Unit := rotate .right n

/-! ## 4. Insertion -/

/-- The end of `insert_case5`: the rotation that brings `n`'s parent up. -/
def rotateParentUp (n g : Ptr) : Program Ptr Key Value Unit := do
  let parent ← getParent n
  let parent ← deref parent
  let pLeft ← getChild .left parent
  if some n = pLeft then rotateRight g else rotateLeft g

/-- `insert_case5`. -/
def insertCase5 (n : Ptr) : Program Ptr Key Value Unit := do
  let g ← grandparent (some n)
  let parent ← getParent n
  let parent ← deref parent
  set (.color parent) .black
  let g ← deref g
  set (.color g) .red
  rotateParentUp n g

/-- The conditions of `insert_case4`: `n` is the child opposite to side `d` of its parent, and the
    parent is the child of `g` on side `d`. -/
def isInner (d : Side) (g : Option Ptr) (n : Ptr) : Program Ptr Key Value Bool := do
  let parent ← getParent n
  let parent ← deref parent
  let pInner ← getChild d.other parent
  if some n = pInner then do
    let parent ← getParent n
    let g ← deref g
    let gChild ← getChild d g
    pure (decide (parent = gChild))
  else pure false

/-- The two rotations written out in `insert_case4`: `n` takes the place of its parent, the child of
    `g` on side `d`; the parent is the node the fix-up goes on with. -/
def insertCase4Rotate (d : Side) (g : Option Ptr) (n : Ptr) : Program Ptr Key Value Ptr := do
  let g ← deref g
  let savedP ← getChild d g
  let savedInner ← getChild d n
  set (.child d g) (some n)
  set (.parent n) (some g)
  set (.child d n) savedP
  let savedP ← deref savedP
  set (.parent savedP) (some n)
  set (.child d.other savedP) savedInner
  setParentOf savedInner (some savedP)
  pure savedP

/-- `insert_case4`. -/
def insertCase4 (n : Ptr) : Program Ptr Key Value Unit := do
  let g ← grandparent (some n)
  let inner ← isInner .left g n
  if inner then do
    let n ← insertCase4Rotate .left g n
    insertCase5 n
  else do
    let inner ← isInner .right g n
    if inner then do
      let n ← insertCase4Rotate .right g n
      insertCase5 n
    else insertCase5 n

/-- `insert_case3`; `case1` is `insert_case1`. -/
def insertCase3 (case1 : Ptr → Program Ptr Key Value Unit) (n : Ptr) :
    Program Ptr Key Value Unit := do
  let u ← uncle n
  let uRed ← isRed u
  if uRed then do
    let parent ← getParent n
    let parent ← deref parent
    set (.color parent) .black
    let u ← deref u
    set (.color u) .black
    let g ← grandparent (some n)
    let g ← deref g
    set (.color g) .red
    case1 g
  else insertCase4 n
where
  /-- `u != nullptr && u->color_.get(tx) == red` -/
  isRed (u : Option Ptr) : Program Ptr Key Value Bool :=
    match u with
    | some u => do
      let c ← getColor u
      pure (decide (c = .red))
    | none => pure false

/-- `insert_case2`. -/
def insertCase2 (case1 : Ptr → Program Ptr Key Value Unit) (n : Ptr) :
    Program Ptr Key Value Unit := do
  let parent ← getParent n
  let parent ← deref parent
  let c ← getColor parent
  if c = .red then insertCase3 case1 n else pure ()

/-- `insert_case1`. -/
def insertCase1 : Nat → Ptr → Program Ptr Key Value Unit
  | 0, _ => .halt .outOfFuel
  | fuel + 1, n => do
    let parent ← getParent n
    if parent = none then set (.color n) .black else insertCase2 (insertCase1 fuel) n

/-- The loop of `push_impl`: from the link `cur` of `parent` down to the null link where the key
    goes. -/
def descend (compare : Key → Key → Bool) (key : Key) :
    Nat → Option Ptr → Link Ptr → Program Ptr Key Value (Option Ptr × Link Ptr)
  | 0, _, _ => .halt .outOfFuel
  | fuel + 1, parent, cur => do
    let nextParent ← untrackedLink cur
    match nextParent with
    | none => pure (parent, cur)
    | some nextParent => do
      let nextKey ← untrackedKey nextParent
      descend compare key fuel (some nextParent)
        (if compare key nextKey then .child .left nextParent else .child .right nextParent)

/-- The gets `push_impl` makes for the sake of validation. -/
def trackParent (root parent : Option Ptr) : Program Ptr Key Value Unit :=
  match parent with
  | none => pure ()
  | some p =>
    if parent = root then pure ()
    else do
      let _ ← getKey p
      let _ ← getChild .left p
      let _ ← getChild .right p
      let pp ← getParent p
      match pp with
      | none => pure ()
      | some q =>
        if pp = root then pure ()
        else do
          let _ ← getChild .left q
          let _ ← getChild .right q
          pure ()

/-- What `push_impl` does from where its loop has ended. -/
def pushAt (fuel : Nat) (newNode : Ptr) (parent : Option Ptr) (cur : Link Ptr) :
    Program Ptr Key Value Unit := do
  let root ← getRoot
  trackParent root parent
  unsafeSet (.parent newNode) parent
  set (.link cur) (some newNode)
  insertCase1 fuel newNode

/-- `push_impl`. -/
def pushImpl (compare : Key → Key → Bool) (fuel : Nat) (newNode : Ptr) :
    Program Ptr Key Value Unit := do
  let key ← unsafeKey newNode
  let slot ← descend compare key fuel none .root
  pushAt fuel newNode slot.1 slot.2

/-- The constructor of `rb_node_`. -/
def construct (n : Ptr) (key : Key) (value : Value) : Program Ptr Key Value Unit := do
  unsafeSet (.key n) key
  unsafeSet (.value n) value
  unsafeSet (.parent n) none
  unsafeSet (.child .left n) none
  unsafeSet (.child .right n) none
  unsafeSet (.color n) .red

/-- `emplace`; `n` is the node the allocator hands out. -/
def emplace (compare : Key → Key → Bool) (fuel : Nat) (n : Ptr) (key : Key) (value : Value) :
    Program Ptr Key Value Unit := do
  construct n key value
  pushImpl compare fuel n

/-! ## 5. Erasure -/

/-- `replace_node`. -/
def replaceNode (n : Ptr) (child : Option Ptr) : Program Ptr Key Value Unit := do
  let parent ← getParent n
  match parent with
  | some p => do
    let pLeft ← getChild .left p
    if pLeft = some n then set (.child .left p) child else set (.child .right p) child
    setParentOf child parent
  | none => do
    set .root child
    setParentOf child parent

/-- `color`. -/
def color (n : Option Ptr) : Program Ptr Key Value Color :=
  match n with
  | some n => getColor n
  | none => pure .black

/-- The two branches of `delete_case6`, for `n` on side `d` of its parent. -/
def deleteCase6Rotate (d : Side) (parent s : Ptr) : Program Ptr Key Value Unit := do
  let nephew ← getChild d.other s
  let nephew ← deref nephew
  set (.color nephew) .black
  rotate d parent

/-- `delete_case6`. -/
def deleteCase6 (parent : Ptr) (n : Option Ptr) : Program Ptr Key Value Unit := do
  let s ← sibling (some parent) n
  let s ← deref s
  let c ← getColor parent
  set (.color s) c
  set (.color parent) .black
  let pLeft ← getChild .left parent
  if n = pLeft then deleteCase6Rotate .left parent s else deleteCase6Rotate .right parent s

/-- The conditions of `delete_case5`, for `n` on side `d` of its parent: the sibling's child on
    that side is red, the other one black. -/
def isInnerRed (d : Side) (parent : Ptr) (n : Option Ptr) (near far : Option Ptr) :
    Program Ptr Key Value Bool := do
  let pChild ← getChild d parent
  if n = pChild then do
    let farColor ← color far
    if farColor = .black then do
      let nearColor ← color near
      pure (decide (nearColor = .red))
    else pure false
  else pure false

/-- The two branches of `delete_case5`, for `n` on side `d` of its parent. -/
def deleteCase5Rotate (d : Side) (s : Ptr) (near : Option Ptr) : Program Ptr Key Value Unit := do
  set (.color s) .red
  let near ← deref near
  set (.color near) .black
  rotate d.other s

/-- `delete_case5`. -/
def deleteCase5 (parent : Ptr) (n : Option Ptr) : Program Ptr Key Value Unit := do
  let s ← sibling (some parent) n
  let s ← deref s
  let c ← getColor s
  if c = .black then do
    let sLeft ← getChild .left s
    let sRight ← getChild .right s
    let inner ← isInnerRed .left parent n sLeft sRight
    if inner then do
      deleteCase5Rotate .left s sLeft
      deleteCase6 parent n
    else do
      let inner ← isInnerRed .right parent n sRight sLeft
      if inner then do
        deleteCase5Rotate .right s sRight
        deleteCase6 parent n
      else deleteCase6 parent n
  else deleteCase6 parent n

/-- `color(s->left_) == black && color(s->right_) == black`. -/
def childrenBlack (s : Ptr) : Program Ptr Key Value Bool := do
  let sLeft ← getChild .left s
  let leftColor ← color sLeft
  if leftColor = .black then do
    let sRight ← getChild .right s
    let rightColor ← color sRight
    pure (decide (rightColor = .black))
  else pure false

/-- The condition of `delete_case4`. -/
def isCase4 (parent : Ptr) (s : Option Ptr) : Program Ptr Key Value Bool := do
  let c ← getColor parent
  if c = .red then do
    let s ← deref s
    let c ← getColor s
    if c = .black then childrenBlack s else pure false
  else pure false

/-- `delete_case4`. -/
def deleteCase4 (parent : Ptr) (n : Option Ptr) : Program Ptr Key Value Unit := do
  let s ← sibling (some parent) n
  let case4 ← isCase4 parent s
  if case4 then do
    let s ← deref s
    set (.color s) .red
    set (.color parent) .black
  else deleteCase5 parent n

/-- The condition of `delete_case3`; it lets a null sibling pass. -/
def isCase3 (parent : Ptr) (s : Option Ptr) : Program Ptr Key Value Bool := do
  let c ← getColor parent
  if c = .black then do
    let c ← color s
    if c = .black then
      match s with
      | none => pure true
      | some s => childrenBlack s
    else pure false
  else pure false

/-- `delete_case3`; `case1` is `delete_case1`. -/
def deleteCase3 (case1 : Option Ptr → Option Ptr → Program Ptr Key Value Unit) (parent : Ptr)
    (n : Option Ptr) : Program Ptr Key Value Unit := do
  let s ← sibling (some parent) n
  let case3 ← isCase3 parent s
  if case3 then do
    let s ← deref s
    set (.color s) .red
    let pp ← getParent parent
    case1 pp (some parent)
  else deleteCase4 parent n

/-- The rotation of `delete_case2`. -/
def deleteCase2Rotate (parent : Ptr) (n : Option Ptr) : Program Ptr Key Value Unit := do
  let pLeft ← getChild .left parent
  if n = pLeft then rotateLeft parent else rotateRight parent

/-- `delete_case2`. -/
def deleteCase2 (case1 : Option Ptr → Option Ptr → Program Ptr Key Value Unit) (parent : Ptr)
    (n : Option Ptr) : Program Ptr Key Value Unit := do
  let s ← sibling (some parent) n
  let c ← color s
  if c = .red then do
    set (.color parent) .red
    let s ← deref s
    set (.color s) .black
    deleteCase2Rotate parent n
    deleteCase3 case1 parent n
  else deleteCase3 case1 parent n

/-- `delete_case1`. -/
def deleteCase1 : Nat → Option Ptr → Option Ptr → Program Ptr Key Value Unit
  | 0, _, _ => .halt .outOfFuel
  | fuel + 1, parent, n =>
    match parent with
    | some parent => deleteCase2 (deleteCase1 fuel) parent n
    | none => pure ()

/-- The rebalancing of `delete_one_child`, after `replace_node` has put `child` in `n`'s place. -/
def rebalance (fuel : Nat) (n : Ptr) (child : Option Ptr) : Program Ptr Key Value Unit := do
  let c ← getColor n
  if c = .black then do
    let childColor ← color child
    if childColor = .red then do
      let child ← deref child
      set (.color child) .black
    else do
      let parent ← getParent n
      deleteCase1 fuel parent child
  else pure ()

/-- `delete_one_child`. -/
def deleteOneChild (fuel : Nat) (n : Ptr) : Program Ptr Key Value Unit := do
  let right ← getChild .right n
  let child ← if right = none then getChild .left n else pure right
  replaceNode n child
  rebalance fuel n child
  destroyDeallocate n

/-- `min_node`. -/
def minNode : Nat → Ptr → Program Ptr Key Value Ptr
  | 0, _ => .halt .outOfFuel
  | fuel + 1, current => do
    let next ← getChild .left current
    match next with
    | some next => minNode fuel next
    | none => pure current

/-- The condition of `erase_impl`. -/
def hasTwoChildren (n : Ptr) : Program Ptr Key Value Bool := do
  let left ← getChild .left n
  if left = none then pure false
  else do
    let right ← getChild .right n
    pure (decide (right ≠ none))

/-- `erase_impl`. -/
def eraseImpl (fuel : Nat) (toErase : Ptr) : Program Ptr Key Value Unit := do
  let two ← hasTwoChildren toErase
  if two then do
    let right ← getChild .right toErase
    let right ← deref right
    let temp ← minNode fuel right
    let tempKey ← getKey temp
    set (.key toErase) tempKey
    let tempValue ← getValue temp
    set (.value toErase) tempValue
    deleteOneChild fuel temp
  else deleteOneChild fuel toErase

/-- The loop of `find`. -/
def findFrom (compare : Key → Key → Bool) (u : Key) :
    Nat → Option Ptr → Program Ptr Key Value (Option Ptr)
  | 0, _ => .halt .outOfFuel
  | fuel + 1, cur =>
    match cur with
    | none => pure none
    | some cur => do
      let curKey ← untrackedKey cur
      if compare u curKey then do
        let next ← untrackedLink (.child .left cur)
        findFrom compare u fuel next
      else if compare curKey u then do
        let next ← untrackedLink (.child .right cur)
        findFrom compare u fuel next
      else pure (some cur)

/-- `find`. -/
def find (compare : Key → Key → Bool) (fuel : Nat) (u : Key) :
    Program Ptr Key Value (Option Ptr) := do
  let cur ← untrackedLink .root
  findFrom compare u fuel cur

/-- `erase_one`. -/
def eraseOne (compare : Key → Key → Bool) (fuel : Nat) (key : Key) :
    Program Ptr Key Value Bool := do
  let toErase ← find compare fuel key
  match toErase with
  | some toErase => do
    eraseImpl fuel toErase
    pure true
  | none => pure false

/-! ## 6. Verification -/

/-- `detail::height_info`. -/
structure HeightInfo where
  minHeight : Nat
  maxHeight : Nat
  blackHeight : Nat

/-- `!child || child->parent_.get(tx) == node`. -/
def checkParent (child : Option Ptr) (node : Ptr) : Program Ptr Key Value Unit :=
  match child with
  | none => pure ()
  | some c => do
    let parent ← getParent c
    assert (decide (parent = some node))

/-- `!left || !compare(node->key.get(tx), left->key.get(tx))`, and the like for the right child
    with the keys the other way. -/
def checkKey (compare : Key → Key → Bool) (d : Side) (child : Option Ptr) (node : Ptr) :
    Program Ptr Key Value Unit :=
  match child with
  | none => pure ()
  | some c => do
    let nodeKey ← getKey node
    let childKey ← getKey c
    match d with
    | .left => assert (!compare nodeKey childKey)
    | .right => assert (!compare childKey nodeKey)

/-- `!child || child->color_.get(tx) == black`. -/
def checkBlack (child : Option Ptr) : Program Ptr Key Value Unit := do
  let c ← color child
  assert (decide (c = .black))

/-- `minmax_height`. -/
def minmaxHeight (compare : Key → Key → Bool) :
    Nat → Option Ptr → Program Ptr Key Value HeightInfo
  | 0, _ => .halt .outOfFuel
  | fuel + 1, node =>
    match node with
    | none => pure ⟨0, 0, 0⟩
    | some node => do
      let left ← getChild .left node
      let right ← getChild .right node
      let heightL ← minmaxHeight compare fuel left
      let heightR ← minmaxHeight compare fuel right
      assert (decide (heightL.blackHeight = heightR.blackHeight))
      checkParent left node
      checkParent right node
      checkKey compare .left left node
      checkKey compare .right right node
      let c ← getColor node
      if c = .red then do
        checkBlack left
        checkBlack right
        pure ⟨min heightL.minHeight heightR.minHeight + 1,
          max heightL.maxHeight heightR.maxHeight + 1, heightL.blackHeight⟩
      else
        pure ⟨min heightL.minHeight heightR.minHeight + 1,
          max heightL.maxHeight heightR.maxHeight + 1, heightL.blackHeight + 1⟩

/-- `verify`. -/
def verify (compare : Key → Key → Bool) (fuel : Nat) : Program Ptr Key Value Unit := do
  let root ← getRoot
  checkBlack root
  let heights ← minmaxHeight compare fuel root
  assert (decide (heights.maxHeight ≤ heights.minHeight * 2))

end Rbtree

end LockfreeStm
