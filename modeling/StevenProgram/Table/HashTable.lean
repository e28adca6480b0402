/-
  `mxHashTable`: bins of elements in rings (`mxHashTable.h`, `mxHashTable.cpp`, `eANode` of
  `eArray.h`).

  The member functions come in one overload for every shape of key, with the same body: what differs
  is the constructor, `isSameKey` and `findBinIndex`, which are overloaded themselves.  A `HashKey`
  is the arguments of an overload, and each function is written once, on a `HashKey`.

  The heap is kept field by field: `elems` holds the elements that are there, and `links` the
  `pPrev` and `pNext` of all of them; `nodes` and `nodeLinks` do the same for the `eANode`s, of
  which `dataRoot` is part of the table.  `new` may return any address that is free.  What the table
  does not have, the number of elements it has constructed and the key buffers it has acquired and
  released, is kept in `made`, `acquired` and `released`; `made` also bounds the loops.

  C++ says nothing of a buffer that is released a second time.  `strict` says what the allocator
  makes of it: it ends the run there (`Fault.doubleFree`), as common ones do, or it writes the
  release down and goes on, so that the releases of a run can be counted.

  `mId` of a node, which nothing reads, and `showHashTable` are left out.
-/
import StevenProgram.Common.Mem
import StevenProgram.Lib.Ring

namespace StevenProgram

namespace HashTable

/-- The types of a table, one for each shape of key. -/
inductive HashType_e where
  | INT32Type
  | INT64Type
  | StringType
  | MainCCType
  | PointerType
  deriving DecidableEq, Repr

/-- The bytes of a `char*` and its length, an `int`. -/
abbrev StrKey : Type := { key : List UInt8 // key.length < 2147483648 }

/-- The arguments of an overload. -/
inductive HashKey where
  | int (key : Int32)
  | pair (key1 key2 : Int32)
  | str (key : StrKey)
  | ptr (key : UInt64)
  deriving DecidableEq

abbrev Addr : Type := Nat

abbrev HASH_STR_CONSTANT : UInt32 := 31

/-! ## Bins

  The arithmetic is that of the code: `int` with its wrap-around, the shifts of a signed number, and
  a `char` that is signed.  A bin of -1 is the answer for a key that the type of the table does not
  support. -/

/-- What the constructor sets and no other function changes. -/
structure HashConfig where
  mBinNumber : Int32
  mDuplicateNumber : Int32
  mHashType : HashType_e
  mBitMask : Int32
  deriving DecidableEq

/-- The constants of `mxHashTable(numberOfBin, hashType, duplicateNum)`. -/
def HashConfig.make (numberOfBin : UInt32) (hashType : HashType_e) (duplicateNum : Int32) :
    HashConfig where
  mBinNumber := numberOfBin.toInt32
  mDuplicateNumber := duplicateNum
  mHashType := hashType
  -- check if it is power of 2
  mBitMask := if numberOfBin &&& (numberOfBin - 1) = 0 then (numberOfBin - 1).toInt32 else 0

namespace HashConfig

variable (c : HashConfig)

/-- The remainder of a key, made positive. -/
def reduce (key : Int32) : Int32 :=
  let val := if c.mBitMask ≠ 0 then key &&& c.mBitMask else key % c.mBinNumber
  if val < 0 then val + c.mBinNumber else val

/-- `findBinIndex(s32_t key)` -/
def findBinIndexInt (key : Int32) : Int32 :=
  match c.mHashType with
  | .INT32Type => c.reduce key
  | .MainCCType => c.reduce ((key <<< 2) + ((key >>> 24) &&& 3))
  | _ => -1

/-- `sum`, with the characters as `signed char`. -/
def strSum (key : List UInt8) : UInt32 :=
  key.foldl (fun sum ch => HASH_STR_CONSTANT * sum + ch.toInt8.toInt32.toUInt32) 0

/-- `findBinIndex(char* pKey, int len)` -/
def findBinIndexStr (key : List UInt8) : Int32 :=
  if c.mHashType = .StringType then
    let sum := strSum key
    if c.mBitMask ≠ 0 then (sum &&& c.mBitMask.toUInt32).toInt32 else
      (sum % c.mBinNumber.toUInt32).toInt32
  else -1

/-- `findBinIndex(s32_t key1, s32_t key2)` -/
def findBinIndexPair (key1 key2 : Int32) : Int32 :=
  if c.mHashType = .INT64Type then c.reduce (key1 + key2) else -1

/-- `findBinIndex(void* key)` -/
def findBinIndexPtr (key : UInt64) : Int32 :=
  if c.mHashType = .PointerType then
    c.reduce ((key.toInt64 <<< 2) + ((key.toInt64 >>> 24) &&& 3)).toInt32
  else -1

/-- The overloads, by the key. -/
def findBinIndex : HashKey → Int32
  | .int key => c.findBinIndexInt key
  | .pair key1 key2 => c.findBinIndexPair key1 key2
  | .str key => c.findBinIndexStr key.1
  | .ptr key => c.findBinIndexPtr key

end HashConfig

/-! ## Elements

  An element has room for every shape of key and no mark for the one it holds; the two kinds of
  string are told by whether `pKey` is NULL. -/

/-- `hashElement`, apart from its links. -/
structure HashElement where
  nKey : Int32
  nKey1 : Int32
  pData : UInt64
  nLen : Nat
  /-- the copy of the key, or NULL -/
  pKey : Option (List UInt8)
  ptrKey : UInt64
  pANode : Option Addr
  /-- the number of the element among all that have been constructed; its key buffer has the same -/
  serial : Nat
  deriving DecidableEq

namespace HashElement

/-- `hashElement(key, data)`, apart from its links. -/
def make (serial : Nat) (data : UInt64) : HashKey → HashElement
  | .int key => ⟨key, 0, data, 0, none, 0, none, serial⟩
  | .pair key1 key2 => ⟨key1, key2, data, 0, none, 0, none, serial⟩
  | .str key =>
      if key.1.length ≠ 0 then ⟨0, 0, data, key.1.length, some key.1, 0, none, serial⟩
      else ⟨0, 0, data, 0, none, 0, none, serial⟩
  | .ptr key => ⟨0, 0, data, 0, none, key, none, serial⟩

/-- `isSameKey(key)`, by the overload. -/
def isSameKey (e : HashElement) : HashKey → Bool
  | .int key => e.pKey.isNone && key == e.nKey
  | .pair key1 key2 => e.pKey.isNone && key1 == e.nKey && key2 == e.nKey1
  | .str key =>
      match e.pKey with
      | some pKey => key.1.length == e.nLen && key.1 == pKey
      | none => false
  | .ptr key => e.ptrKey != 0 && e.ptrKey == key

/-- The key buffer, if the element has one. -/
def buffer (e : HashElement) : List Nat := if e.pKey.isSome then [e.serial] else []

end HashElement

/-! ## The table

  Fields in the order of the class, and then the heap. -/

/-- The members of the table, the heap, and the histories of the run. -/
structure Table where
  cfg : HashConfig
  mpBin : List (Option Addr)
  mNumberOfElement : UInt32
  elems : Addr → Option HashElement
  links : Links Addr
  /-- the element a node holds -/
  nodes : Addr → Option Addr
  nodeLinks : Links Addr
  made : Nat
  acquired : List Nat
  released : List Nat
  /-- whether a second release of a buffer ends the run -/
  strict : Bool

/-- The address of the table's own node. -/
def dataRoot : Addr := 0

/-- `mxHashTable(numberOfBin, hashType, duplicateNum)` -/
def mxHashTable (numberOfBin : UInt32) (hashType : HashType_e) (duplicateNum : Int32) : Table where
  cfg := .make numberOfBin hashType duplicateNum
  mpBin := List.replicate numberOfBin.toNat none
  mNumberOfElement := 0
  elems _ := none
  links := ⟨id, id⟩
  nodes _ := none
  nodeLinks := ⟨id, id⟩
  made := 0
  acquired := []
  released := []
  strict := false

namespace Table

variable (t : Table)

/-! ### The heap -/

/-- `*p` -/
def elem (p : Addr) : Run HashElement :=
  match t.elems p with
  | some e => .ok e
  | none => .error .outOfBounds

/-- `p->pNext` -/
def pNext (p : Addr) : Run Addr :=
  if (t.elems p).isSome then .ok (t.links.next p) else .error .outOfBounds

/-- `p->pPrev` -/
def pPrev (p : Addr) : Run Addr :=
  if (t.elems p).isSome then .ok (t.links.prev p) else .error .outOfBounds

/-- `p->pNext = q` -/
def setNext (p q : Addr) : Run Table :=
  if (t.elems p).isSome then .ok { t with links := t.links.setNext p q } else .error .outOfBounds

/-- `p->pPrev = q` -/
def setPrev (p q : Addr) : Run Table :=
  if (t.elems p).isSome then .ok { t with links := t.links.setPrev p q } else .error .outOfBounds

/-- `mpBin[index]` -/
def bin (index : Int) : Run (Option Addr) :=
  if index < 0 then .error .outOfBounds
  else match t.mpBin[index.toNat]? with
    | some p => .ok p
    | none => .error .outOfBounds

/-- `mpBin[index] = p` -/
def setBin (index : Int) (p : Option Addr) : Run Table :=
  if index < 0 ∨ t.mpBin.length ≤ index.toNat then .error .outOfBounds
  else .ok { t with mpBin := t.mpBin.set index.toNat p }

/-- `new hashElement(key, data)`, at `p` -/
def construct (p : Addr) (key : HashKey) (data : UInt64) : Table :=
  let e := HashElement.make t.made data key
  { t with
    elems := fun q => if q = p then some e else t.elems q
    links := t.links.single p
    made := t.made + 1
    acquired := t.acquired ++ e.buffer }

/-- `if ( pKey ) delete[] pKey;` -/
def releaseKey (e : HashElement) : Run Table :=
  if t.strict = true ∧ ∃ b ∈ e.buffer, b ∈ t.released then .error .doubleFree
  else .ok { t with released := t.released ++ e.buffer }

/-- `p->hashElement::~hashElement()`: the element leaves its ring, and then releases its key. -/
def destruct (p : Addr) : Run Table := do
  let prev ← t.pPrev p
  let t ← if prev ≠ p then do
      let next ← t.pNext p
      let t ← t.setNext prev next
      let next ← t.pNext p
      let prev ← t.pPrev p
      t.setPrev next prev
    else .ok t
  let e ← t.elem p
  t.releaseKey e

/-- `delete p` -/
def delete (p : Addr) : Run Table := do
  let t ← t.destruct p
  .ok { t with elems := fun q => if q = p then none else t.elems q }

/-! ### Inserting -/

/-- `dataRoot.insert_before(node)` for a new node that holds `pEle`. -/
def linkNode (pEle node : Addr) : Run Table := do
  let e ← t.elem pEle
  let t := { t with
    nodes := fun q => if q = node then some pEle else t.nodes q
    elems := fun q => if q = pEle then some { e with pANode := some node } else t.elems q }
  let last := t.nodeLinks.prev dataRoot
  if last = dataRoot ∨ (t.nodes last).isSome then
    .ok { t with nodeLinks := (t.nodeLinks.single node).insertBefore dataRoot node }
  else .error .outOfBounds

/-- `insertToBin(index, pEle)`: to the end of the ring, and to the list of all elements. -/
def insertToBin (index : Int) (pEle node : Addr) : Run Table := do
  let head ← t.bin index
  let t ← match head with
    | some pOld => do
        let t ← t.setNext pEle pOld
        let prev ← t.pPrev pOld
        let t ← t.setPrev pEle prev
        let prev ← t.pPrev pOld
        let t ← t.setNext prev pEle
        t.setPrev pOld pEle
    | none => t.setBin index (some pEle)
  let t ← t.linkNode pEle node
  .ok { t with mNumberOfElement := t.mNumberOfElement + 1 }

/-! ### Searching -/

/-- `while (pOrg != pNext)`, at most `fuel` times: the element with the key. -/
def search (key : HashKey) (pOrg : Addr) : Nat → Option Addr → Run (Option Addr)
  | 0, _ => .error .diverged
  | fuel + 1, pNext =>
      if some pOrg = pNext then .ok none
      else do
        let p := pNext.getD pOrg
        let e ← t.elem p
        if e.isSameKey key then .ok (some p)
        else do
          let next ← t.pNext p
          search key pOrg fuel (some next)

/-- `find(key, isFound)`: `isFound`, and the data. -/
def find (key : HashKey) : Run (Bool × UInt64) :=
  let index := t.cfg.findBinIndex key
  if index ≠ -1 then do
    let head ← t.bin index.toInt
    match head with
    | none => .ok (false, 0)
    | some pOrg => do
        let found ← t.search key pOrg (t.made + 1) none
        match found with
        | none => .ok (false, 0)
        | some p => do
            let e ← t.elem p
            .ok (true, e.pData)
  else .ok (false, 0)

/-- `find(key)`: the data. -/
def findData (key : HashKey) : Run UInt64 := do
  let (_, data) ← t.find key
  .ok data

/-- `insert(key, pData)`, with the addresses the two `new`s return.  In a table that takes no
    duplicates it looks for the key first. -/
def insert (key : HashKey) (pData : UInt64) (pEle node : Addr) : Run (Bool × Table) := do
  let (isFound, _) ← if t.cfg.mDuplicateNumber = 0 then t.find key else .ok (false, 0)
  if isFound then .ok (false, t)
  else
    let index := t.cfg.findBinIndex key
    if index ≠ -1 then do
      let t ← (t.construct pEle key pData).insertToBin index.toInt pEle node
      .ok (true, t)
    else .ok (false, t)

/-! ### Removing -/

/-- `remove(key)`: the data, and the table. -/
def remove (key : HashKey) : Run (UInt64 × Table) :=
  let index := t.cfg.findBinIndex key
  if index ≠ -1 then do
    let head ← t.bin index.toInt
    match head with
    | none => .ok (0, t)
    | some pOrg => do
        let found ← t.search key pOrg (t.made + 1) none
        match found with
        | none => .ok (0, t)
        | some p => do
            let e ← t.elem p
            let prev ← t.pPrev p
            let next ← t.pNext p
            let t ← if prev = p then t.setBin index.toInt none
              else if p = pOrg then t.setBin index.toInt (some next)
              else .ok t
            let t ← t.delete p
            .ok (e.pData, { t with mNumberOfElement := t.mNumberOfElement - 1 })
  else .ok (0, t)

/-- `p->hashElement::~hashElement(); delete p; mNumberOfElement--;` -/
def discard (p : Addr) : Run Table := do
  let t ← t.destruct p
  let t ← t.delete p
  .ok { t with mNumberOfElement := t.mNumberOfElement - 1 }

/-- `while (pCur != mpBin[i])`, at most `fuel` times. -/
def clearBack (head : Addr) : Nat → Table → Addr → Run Table
  | 0, _, _ => .error .diverged
  | fuel + 1, t, pCur =>
      if pCur = head then .ok t
      else do
        let pTmp ← t.pPrev pCur
        let t ← t.discard pCur
        clearBack head fuel t pTmp

/-- The body of the loop of `clear`: from the last element of the ring back to the second, and then
    the first. -/
def clearBin (i : Nat) : Run Table := do
  let head ← t.bin i
  match head with
  | none => .ok t
  | some head => do
      let pCur ← t.pPrev head
      let t ← clearBack head (t.made + 1) t pCur
      let t ← t.discard head
      t.setBin i none

/-- `clear()`: bin by bin. -/
def clear : Run Table := (List.range t.cfg.mBinNumber.toInt.toNat).foldlM clearBin t

/-- `~mxHashTable()` -/
def destroy : Run Table := do
  let t ← t.clear
  .ok { t with mpBin := [] }

def size : UInt32 := t.mNumberOfElement

end Table

/-! ## Calls

  The interface as data, so that a run is a list.  What a call allocates comes with it, and any free
  address will do. -/

/-- A call, with the addresses that `new` returns if it comes to that. -/
inductive HashOp where
  | insert (key : HashKey) (pData : UInt64) (pEle node : Addr)
  | find (key : HashKey)
  | findData (key : HashKey)
  | remove (key : HashKey)
  | clear
  | size

/-- What a call returns. -/
inductive HashRet where
  | done (b : Bool)
  | found (isFound : Bool) (pData : UInt64)
  | data (pData : UInt64)
  | nothing
  | count (n : UInt32)
  deriving DecidableEq

/-- A call, with what it returns. -/
def exec (t : Table) : HashOp → Run (HashRet × Table)
  | .insert key pData pEle node => do
      let (b, t) ← t.insert key pData pEle node
      .ok (.done b, t)
  | .find key => do
      let (isFound, pData) ← t.find key
      .ok (.found isFound pData, t)
  | .findData key => do
      let pData ← t.findData key
      .ok (.data pData, t)
  | .remove key => do
      let (pData, t) ← t.remove key
      .ok (.data pData, t)
  | .clear => do
      let t ← t.clear
      .ok (.nothing, t)
  | .size => .ok (.count t.size, t)

/-- Whether `new` can return these addresses. -/
def Free (t : Table) : HashOp → Prop
  | .insert _ _ pEle node => t.elems pEle = none ∧ t.nodes node = none ∧ node ≠ dataRoot
  | _ => True

instance (t : Table) : (op : HashOp) → Decidable (Free t op)
  | .insert .. => inferInstanceAs (Decidable (_ ∧ _ ∧ _))
  | .find _ | .findData _ | .remove _ | .clear | .size => isTrue trivial

end HashTable

end StevenProgram
