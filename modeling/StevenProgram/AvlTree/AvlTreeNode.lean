/-
  `AvlTreeNode.h` and `AvlTreeNode.cpp`: a balanced search tree of intrusive nodes.

  An object of the class is a name of `ι`, an `AvlTreeNode*` an `Option ι`, and an `AvlTreeNode**` a
  `Slot`: the root variable or a child field.  `LEFT` and `RIGHT`, the ints 0 and 1 that index
  `m_pChild`, are the two `Side`s, and `1 - n` is `n.other`; `balance_state` is `LEFT`, `RIGHT` or
  `BALANCED`, an `Option Side`.  The paths a descent keeps are arrays of `TREE_MAX_HEIGHT` entries:
  a write past their end is a fault.  The assertions are what the calls require; `Comparable` is the
  order that `CompareTo` has to be.

  The loops take fuel.  Those that keep a path have `TREE_MAX_HEIGHT + 1` turns, one more than the
  arrays have entries, so that the bound of the source decides and never the fuel; `Replace(1)` and
  the checks, which have no bound of their own, get theirs from the caller.

  1.  **Nodes** — `Store`, its slots, `Comparable`.

  2.  **Paths** — the two stacks, as `Insert` and `Remove` have them on their frame and `ProbePath`
     as members.

  3.  **`Rotate`** — the two shapes of it, and the answer by which `Remove` knows whether the height
     is the old one.

  4.  **The calls** — `Probe`, both forms of `Insert`, `Remove` and `Replace`, the walks.  Each of
     them begins by setting the root variable to the node it is called on.

  5.  **The checks** — `GetHeight`, `CalcBalance`, `CheckIntegrity`, which only debug code calls.
-/
import Mathlib.Data.Int.Order.Basic
import Mathlib.Logic.Function.Basic
import StevenProgram.Common.Mem
import StevenProgram.Lib.TreePath

namespace StevenProgram.AvlTree

/-- The entries of the arrays. -/
def TREE_MAX_HEIGHT : Nat := 33

/-- What `CompareTo` promises: a total order, by the sign of the result. -/
class Comparable (K : Type) extends LinearOrder K where
  CompareTo : K → K → Int
  neg_iff : ∀ a b, CompareTo a b < 0 ↔ a < b
  zero_iff : ∀ a b, CompareTo a b = 0 ↔ a = b

export Comparable (CompareTo)

/-- `IntegerNode`: `CompareTo` is a difference. -/
instance : Comparable Int where
  CompareTo a b := a - b
  neg_iff a b := by omega
  zero_iff a b := by omega

/-! ## Nodes

  A store is the members of all nodes at once, and the one root variable the calls work on.  Two
  nodes are two names; nothing says that they hang in one tree. -/

/-- `AvlTreeNode**`. -/
inductive Slot (ι : Type) where
  | root
  | child (i : ι) (n : Side)
  deriving DecidableEq

/-- The nodes' members, and the root variable a call works on: its `pRoot`, or the `m_pRoot` of its
    path. -/
structure Store (ι : Type) where
  pRoot : Option ι
  m_nState : ι → Option Side
  m_pChild : ι → Side → Option ι

namespace Store

variable {ι : Type}

/-- `*pp`. -/
def get (m : Store ι) : Slot ι → Option ι
  | .root => m.pRoot
  | .child i n => m.m_pChild i n

/-- What the constructor leaves. -/
def Constructed (m : Store ι) (i : ι) : Prop := m.m_nState i = none ∧ ∀ n, m.m_pChild i n = none

variable [DecidableEq ι]

/-- `*pp = p`. -/
def set (m : Store ι) : Slot ι → Option ι → Store ι
  | .root, p => { m with pRoot := p }
  | .child i n, p =>
      { m with m_pChild := Function.update m.m_pChild i (Function.update (m.m_pChild i) n p) }

/-- `p->m_nState = s`. -/
def setState (m : Store ι) (i : ι) (s : Option Side) : Store ι :=
  { m with m_nState := Function.update m.m_nState i s }

/-- The constructor. -/
def construct (m : Store ι) (i : ι) : Store ι :=
  ((m.setState i none).set (.child i .left) none).set (.child i .right) none

end Store

variable {ι : Type}

/-! ## Paths

  `nStackTop` counts the entries that are in use.  What stands above them is what earlier turns left
  there, and is read by nobody. -/

/-- `arppNodeStack`, `arnDirStack` and `nStackTop`. -/
structure Path (ι : Type) where
  nStackTop : Nat
  arppNodeStack : Nat → Slot ι
  arnDirStack : Nat → Side

namespace Path

/-- No entry; what the arrays hold is never read. -/
def start : Path ι := ⟨0, fun _ => .root, fun _ => .left⟩

/-- `arppNodeStack[i] = pp`. -/
def setNode (st : Path ι) (i : Nat) (pp : Slot ι) : Run (Path ι) :=
  if i < TREE_MAX_HEIGHT then .ok { st with arppNodeStack := Function.update st.arppNodeStack i pp }
    else .error .outOfBounds

/-- `arppNodeStack[nStackTop] = pp; arnDirStack[nStackTop++] = n;` -/
def push (st : Path ι) (pp : Slot ι) (n : Side) : Run (Path ι) := do
  let st ← st.setNode st.nStackTop pp
  return { st with
    nStackTop := st.nStackTop + 1
    arnDirStack := Function.update st.arnDirStack st.nStackTop n }

end Path

/-- What `Probe` reports. -/
inductive probe_result where
  | FOUND
  | NOT_FOUND
  | FULL
  deriving DecidableEq, Repr

/-- `ProbePath`; its `m_pRoot` is the root variable of the store. -/
structure ProbePath (ι : Type) extends Path ι where
  m_eResult : probe_result

/-- `nComp < 0` as an index. -/
def dirOf (nComp : Int) : Side := if nComp < 0 then .right else .left

/-! ## Rotation -/

/-- `this->Rotate(ppThis, n)`. -/
def Rotate [DecidableEq ι] (m : Store ι) (this : ι) (ppThis : Slot ι) (n : Side) :
    Run (Store ι × Bool) := do
  let r := n.other
  let pChild ← deref (m.m_pChild this n)
  let pGrandChild := m.m_pChild pChild r
  if m.m_nState pChild ≠ some r then
    let m := m.set (.child this n) pGrandChild
    let m := m.set (.child pChild r) (some this)
    let m := m.set ppThis (some pChild)
    if m.m_nState pChild = none then
      return (m.setState pChild (some r), true)
    let m := m.setState this none
    let top ← deref (m.get ppThis)
    return (m.setState top none, false)
  else
    let pGrandChild ← deref pGrandChild
    let m := m.set (.child pChild r) (m.m_pChild pGrandChild n)
    let m := m.set (.child this n) (m.m_pChild pGrandChild r)
    let m := m.set (.child pGrandChild n) (some pChild)
    let m := m.set (.child pGrandChild r) (some this)
    let m := m.set ppThis (some pGrandChild)
    let m := m.setState this none
    let m := m.setState pChild none
    let m := if m.m_nState pGrandChild = some n then m.setState this (some r)
      else if m.m_nState pGrandChild = some r then m.setState pChild (some n) else m
    let top ← deref (m.get ppThis)
    return (m.setState top none, false)

/-! ## Probing and inserting -/

section Calls

variable {K : Type} [Comparable K] (key : ι → K)

/-- The loop of `Probe`. -/
def probeLoop (m : Store ι) (k : K) : Nat → Slot ι → Path ι → Run (probe_result × Slot ι × Path ι)
  | 0, _, _ => .error .diverged
  | fuel + 1, ppThis, st =>
    match m.get ppThis with
    | none => .ok (.NOT_FOUND, ppThis, st)
    | some i => do
      let nComp := CompareTo (key i) k
      let nDir := dirOf nComp
      let st ← st.push ppThis nDir
      if nComp = 0 then return (.FOUND, ppThis, st)
      if TREE_MAX_HEIGHT ≤ st.nStackTop then return (.FULL, ppThis, st)
      probeLoop m k fuel (.child i nDir) st

/-- `this->Probe(pComparable, pPath)`. -/
def Probe (m : Store ι) (this : ι) (k : K) : Run (Store ι × ProbePath ι) := do
  let m := { m with pRoot := some this }
  let (eRet, ppThis, st) ← probeLoop key m k (TREE_MAX_HEIGHT + 1) .root .start
  if m.get ppThis = none then
    let st ← st.setNode st.nStackTop ppThis
    return (m, ⟨{ st with nStackTop := st.nStackTop + 1 }, eRet⟩)
  return (m, ⟨st, eRet⟩)

/-- `pPath->Access()`. -/
def ProbePath.Access (m : Store ι) (pPath : ProbePath ι) : Option ι :=
  if pPath.m_eResult = .FOUND then m.get (pPath.arppNodeStack (pPath.nStackTop - 1)) else none

/-- The first loop of `Insert(1)`; `none` where it returns the root. -/
def insertLoop (m : Store ι) (k : K) : Nat → Slot ι → Path ι → Run (Option (Slot ι × Path ι))
  | 0, _, _ => .error .diverged
  | fuel + 1, ppThis, st =>
    match m.get ppThis with
    | none => .ok (some (ppThis, st))
    | some i =>
      let n := CompareTo (key i) k
      if n = 0 then .ok none
      else if TREE_MAX_HEIGHT ≤ st.nStackTop then .ok none
      else do
        let st ← st.push ppThis (dirOf n)
        insertLoop m k fuel (.child i (dirOf n)) st

variable [DecidableEq ι]

/-- The second loop of `Insert`, from `nStackTop`. -/
def insertRebalance (st : Path ι) : Nat → Store ι → Run (Store ι)
  | 0, m => .ok m
  | nStackTop + 1, m => do
    let ppThis := st.arppNodeStack nStackTop
    let n := st.arnDirStack nStackTop
    let pNode ← deref (m.get ppThis)
    if m.m_nState pNode = none then insertRebalance st nStackTop (m.setState pNode (some n))
    else if m.m_nState pNode = some n.other then return m.setState pNode none
    else
      let (m, _) ← Rotate m pNode ppThis n
      return m

/-- `this->Insert(pInsert)`. -/
def Insert (m : Store ι) (this pInsert : ι) : Run (Store ι) := do
  let m := { m with pRoot := some this }
  match ← insertLoop key m (key pInsert) (TREE_MAX_HEIGHT + 1) .root .start with
  | none => return m
  | some (ppThis, st) => insertRebalance st st.nStackTop (m.set ppThis (some pInsert))

/-- `Insert(pPath, pInsert)`. -/
def InsertAt (m : Store ι) (pPath : ProbePath ι) (pInsert : ι) : Run (Store ι) :=
  match pPath.nStackTop with
  | 0 => .error .outOfBounds
  | nStackTop + 1 =>
    let ppThis := pPath.arppNodeStack nStackTop
    match m.get ppThis with
    | some _ => .ok m
    | none => insertRebalance pPath.toPath nStackTop (m.set ppThis (some pInsert))

/-! ## Removing

  `Remove` goes past the target to an empty place, so the last node on its path is the one in front
  of the target in the order, or the target itself where it has no left subtree.  That node is
  swapped in.  `pppStack` points to the entry above the target, the only one on the path that names
  the target's own child field. -/

omit [DecidableEq ι] in
/-- The first loop of `Remove(1)`: with the path, `ppTarget` and the index `pppStack` points to. -/
def removeLoop (m : Store ι) (k : K) : Nat → Slot ι → Path ι → Option (Slot ι × Nat) →
    Run (Option (Slot ι × Nat) × Path ι)
  | 0, _, _, _ => .error .diverged
  | fuel + 1, ppThis, st, target =>
    match m.get ppThis with
    | none => .ok (target, st)
    | some i => do
      let n := CompareTo (key i) k
      let target := if n = 0 then some (ppThis, st.nStackTop + 1) else target
      let st ← st.push ppThis (dirOf n)
      removeLoop m k fuel (.child i (dirOf n)) st target

/-- The last loop of `Remove`, from `nStackTop`. -/
def removeRebalance (st : Path ι) : Nat → Store ι → Run (Store ι)
  | 0, m => .ok m
  | nStackTop + 1, m => do
    let ppThis := st.arppNodeStack nStackTop
    let n := st.arnDirStack nStackTop
    let pNode ← deref (m.get ppThis)
    if m.m_nState pNode = none then return m.setState pNode (some n.other)
    else if m.m_nState pNode = some n then removeRebalance st nStackTop (m.setState pNode none)
    else
      let (m, stop) ← Rotate m pNode ppThis n.other
      if stop then return m else removeRebalance st nStackTop m

/-- From `Restore a node from the stack` to the end of `Remove`: the target is replaced by the last
    node on the path, which leaves its own place to its remaining subtree. -/
def removeSwap (m : Store ι) (st : Path ι) (ppTarget : Slot ι) (pppStack : Nat) :
    Run (Store ι × Option ι) :=
  match st.nStackTop with
  | 0 => .error .outOfBounds
  | nStackTop + 1 => do
    let ppThis := st.arppNodeStack nStackTop
    let n := st.arnDirStack nStackTop
    let pTarget ← deref (m.get ppTarget)
    let pNode ← deref (m.get ppThis)
    let m := m.set ppTarget (some pNode)
    let m := m.set ppThis (m.m_pChild pNode n.other)
    let m := m.set (.child pNode .left) (m.m_pChild pTarget .left)
    let m := m.set (.child pNode .right) (m.m_pChild pTarget .right)
    let m := m.setState pNode (m.m_nState pTarget)
    let st ← st.setNode pppStack (.child pNode n.other)
    let m := (m.set (.child pTarget .right) none).set (.child pTarget .left) none
    let m ← removeRebalance st nStackTop m
    return (m, some pTarget)

/-- `this->Remove(pComparable, ppRemoved)`; the second part is `*ppRemoved`. -/
def Remove (m : Store ι) (this : ι) (k : K) : Run (Store ι × Option ι) := do
  let m := { m with pRoot := some this }
  let (target, st) ← removeLoop key m k (TREE_MAX_HEIGHT + 1) .root .start none
  match target with
  | none => return (m, none)
  | some (ppTarget, pppStack) => removeSwap m st ppTarget pppStack

omit [DecidableEq ι] in
/-- The loop of `Remove(2)`: down to the node to be swapped. -/
def removeAtLoop (m : Store ι) (k : K) : Nat → Slot ι → Path ι → Run (Path ι)
  | 0, _, _ => .error .diverged
  | fuel + 1, ppThis, st =>
    match m.get ppThis with
    | none => .ok st
    | some i => do
      let n := dirOf (CompareTo (key i) k)
      let st ← st.push ppThis n
      removeAtLoop m k fuel (.child i n) st

/-- `Remove(pPath, ppRemoved)`. -/
def RemoveAt (m : Store ι) (pPath : ProbePath ι) : Run (Store ι × Option ι) :=
  match pPath.nStackTop with
  | 0 => .error .outOfBounds
  | top + 1 =>
    let ppTarget := pPath.arppNodeStack top
    match m.get ppTarget with
    | none => .ok (m, none)
    | some i => do
      let n := pPath.arnDirStack top
      let st ← removeAtLoop key m (key i) (TREE_MAX_HEIGHT + 1) (.child i n) pPath.toPath
      removeSwap m st ppTarget (top + 1)

/-! ## Replacing -/

/-- The node in `ppThis` makes room for `*ppReplace`; the second part is what `*ppReplace` holds
    afterwards. -/
def replaceNode (m : Store ι) (ppThis : Slot ι) (pReturn pReplace : ι) : Store ι × ι :=
  if pReplace = pReturn then (m, pReplace)
  else
    let m := m.set ppThis (some pReplace)
    let m := m.set (.child pReplace .left) (m.m_pChild pReturn .left)
    let m := m.set (.child pReplace .right) (m.m_pChild pReturn .right)
    let m := m.setState pReplace (m.m_nState pReturn)
    let m := m.set (.child pReturn .left) none
    let m := m.set (.child pReturn .right) none
    (m.setState pReturn none, pReturn)

/-- The loop of `Replace(1)`, which keeps no path and has no bound of its own. -/
def replaceLoop (m : Store ι) (k : K) (pReplace : ι) : Nat → Slot ι → Run (Store ι × ι)
  | 0, _ => .error .diverged
  | fuel + 1, ppThis =>
    match m.get ppThis with
    | none => .ok (m, pReplace)
    | some i =>
      let n := CompareTo (key i) k
      if n = 0 then .ok (replaceNode m ppThis i pReplace) else replaceLoop m k pReplace fuel
        (.child i (dirOf n))

/-- `this->Replace(pComparable, ppReplace)`. -/
def Replace (m : Store ι) (this : ι) (k : K) (pReplace : ι) (fuel : Nat) : Run (Store ι × ι) :=
  replaceLoop key { m with pRoot := some this } k pReplace fuel .root

/-- `Replace(pPath, ppReplace)`. -/
def ReplaceAt (m : Store ι) (pPath : ProbePath ι) (pReplace : ι) : Run (Store ι × ι) :=
  match pPath.nStackTop with
  | 0 => .error .outOfBounds
  | nStackTop + 1 =>
    let ppThis := pPath.arppNodeStack nStackTop
    match m.get ppThis with
    | none => .ok (m, pReplace)
    | some i => .ok (replaceNode m ppThis i pReplace)

end Calls

/-! ## Walking -/

/-- `this->GetPolarNode(n)`. -/
def GetPolarNode (m : Store ι) (n : Side) : Nat → ι → Run ι
  | 0, _ => .error .diverged
  | fuel + 1, pNode =>
    match m.m_pChild pNode n with
    | none => .ok pNode
    | some p => GetPolarNode m n fuel p

/-- The last node in order. -/
def GetMaxNode (m : Store ι) (fuel : Nat) (this : ι) : Run ι := GetPolarNode m .right fuel this

/-- The first one. -/
def GetMinNode (m : Store ι) (fuel : Nat) (this : ι) : Run ι := GetPolarNode m .left fuel this

/-- `TraversePath`: the first `m_nStackTop` entries of `m_arpNodeStack`, the topmost first. -/
structure TraversePath (ι : Type) where
  stack : List ι

/-- `do { ppStack[nTop++] = pNode; pNode = pNode->m_pChild[LEFT]; } while (pNode);` -/
def leftSpine (m : Store ι) : Nat → List ι → ι → Run (List ι)
  | 0, _, _ => .error .diverged
  | fuel + 1, stack, pNode =>
    if stack.length < TREE_MAX_HEIGHT then
      match m.m_pChild pNode .left with
      | none => .ok (pNode :: stack)
      | some p => leftSpine m fuel (pNode :: stack) p
    else .error .outOfBounds

/-- `this->InitTraverse(pPath)`. -/
def InitTraverse (m : Store ι) (this : ι) : Run (TraversePath ι) := do
  return ⟨← leftSpine m (TREE_MAX_HEIGHT + 1) [] this⟩

/-- `Traverse(pPath)`. -/
def Traverse (m : Store ι) (pPath : TraversePath ι) : Run (Option ι × TraversePath ι) :=
  match pPath.stack with
  | [] => .ok (none, pPath)
  | pNode :: stack =>
    match m.m_pChild pNode .right with
    | none => .ok (some pNode, ⟨stack⟩)
    | some p => do return (some pNode, ⟨← leftSpine m (TREE_MAX_HEIGHT + 1) stack p⟩)

/-! ## Checks -/

/-- `p ? f(p) : d`. -/
def ifNode {β : Type} (p : Option ι) (f : ι → Run β) (d : β) : Run β :=
  match p with
  | none => .ok d
  | some i => f i

/-- `this->GetHeight()`. -/
def GetHeight (m : Store ι) : Nat → ι → Run Int
  | 0, _ => .error .diverged
  | fuel + 1, this => do
    let left ← ifNode (m.m_pChild this .left) (fun p => do return (← GetHeight m fuel p) + 1) 0
    let right ← ifNode (m.m_pChild this .right) (fun p => do return (← GetHeight m fuel p) + 1) 0
    return if left > right then left else right

/-- `this->CalcBalance()`. -/
def CalcBalance (m : Store ι) (fuel : Nat) (this : ι) : Run Int := do
  let left ← ifNode (m.m_pChild this .left) (fun p => do return (← GetHeight m fuel p) + 1) 0
  let right ← ifNode (m.m_pChild this .right) (fun p => do return (← GetHeight m fuel p) + 1) 0
  return right - left

/-- `this->CheckIntegrity()`. -/
def CheckIntegrity {K : Type} [Comparable K] (key : ι → K) (m : Store ι) : Nat → ι → Run Bool
  | 0, _ => .error .diverged
  | fuel + 1, this => do
    let comp_left ← ifNode (m.m_pChild this .left)
      (fun p => .ok (decide (CompareTo (key this) (key p) > 0))) true
    let comp_right ← ifNode (m.m_pChild this .right)
      (fun p => .ok (decide (CompareTo (key this) (key p) < 0))) true
    let b ← CalcBalance m fuel this
    let balance :=
      if b = -1 then m.m_nState this == some .left
      else if b = 0 then m.m_nState this == none
      else if b = 1 then m.m_nState this == some .right
      else false
    let check_left ← ifNode (m.m_pChild this .left) (CheckIntegrity key m fuel) true
    let check_right ← ifNode (m.m_pChild this .right) (CheckIntegrity key m fuel) true
    return check_left && check_right && balance && comp_left && comp_right

end StevenProgram.AvlTree
