/-
  Whole programs: any sequence of calls on one root variable.

  The tree's system runs the calls of the class on the store.  The map's system runs what they are
  for on a `SortedMap`; it also keeps the nodes that a removal left with a stale `m_nState`, which
  must not be inserted again before they are constructed.  The second is the specification, written
  without a tree, and the first refines it.

  1.  **Calls** — `call`, with the pointer each call hands out; the two systems.  What the calls ask
     of their caller is `MapState.Allows`: a method needs a root, an insertion a constructed node
     and room.

  2.  **One step** — `call_spec`: from a store that represents the map, a call returns what the map
     returns, without a fault, and represents the next map.  `Follows` is the invariant: a tree that
     represents the map, at most `capacity` nodes, and every other node constructed unless it is
     stale.  With so many nodes the tree has fewer levels than the arrays have entries, by
     `fib_le_numNodes`; this is the one place where the balance is used.

  3.  **Runs** — `runs_follow`: so does every sequence of calls that the map allows, by the
     simulation rule of `TransSys`.

  4.  **History** — `holder` tells from the calls alone, without an order, which node has a key;
     `runs_agree`: two programs with the same holders leave trees that find and list the same,
     whatever their shapes.
-/
import StevenProgram.Lib.TransSys
import StevenProgram.AvlTree.Removal
import StevenProgram.AvlTree.Replacement
import StevenProgram.AvlTree.Traversal
import StevenProgram.AvlTree.Integrity

namespace StevenProgram.AvlTree

open BinaryTree Store

variable {ι K : Type} [Comparable K] [DecidableEq ι] {key : ι → K} {m m' : Store ι}
  {t t' : NodeTree ι} {s : SortedMap key}
  {i j this : ι}

/-! ## Calls -/

/-- `byPath` tells the form that takes the path of a `Probe` before it. -/
inductive Call (ι K : Type) where
  | construct (i : ι)
  /-- `pRoot = i`. -/
  | first (i : ι)
  | insert (byPath : Bool) (i : ι)
  | probe (k : K)
  | remove (byPath : Bool) (k : K)
  | replace (byPath : Bool) (i : ι)
  /-- `GetMinNode` on the left, `GetMaxNode` on the right -/
  | polar (d : Side)

/-- A call, with the pointer it hands out. -/
def call (key : ι → K) (m : Store ι) : Call ι K → Run (Store ι × Option ι)
  | .construct i => .ok (m.construct i, none)
  | .first i => .ok ({ m with pRoot := some i }, none)
  | .insert byPath i => do
    let this ← deref m.pRoot
    let m ←
      if byPath then Probe key m this (key i) >>= fun r => InsertAt r.1 r.2 i
      else Insert key m this i
    return (m, none)
  | .probe k => do
    let this ← deref m.pRoot
    let (m, p) ← Probe key m this k
    return (m, p.Access m)
  | .remove byPath k => do
    let this ← deref m.pRoot
    if byPath then Probe key m this k >>= fun r => RemoveAt key r.1 r.2 else Remove key m this k
  | .replace byPath i => do
    let this ← deref m.pRoot
    let (m, p) ← if byPath then Probe key m this (key i) >>= fun r => ReplaceAt r.1 r.2 i
      else Replace key m this (key i) i (TREE_MAX_HEIGHT + 1)
    return (m, some p)
  | .polar d => do
    let this ← deref m.pRoot
    let p ← d.pick (GetMinNode m (TREE_MAX_HEIGHT + 1) this)
      (GetMaxNode m (TREE_MAX_HEIGHT + 1) this)
    return (m, some p)

/-- The calls as events with what they hand out; a fault or another pointer is no step. -/
def treeSys (key : ι → K) : TransSys (Store ι) (Call ι K × Option ι) where
  init := ⟨none, fun _ => none, fun _ _ => none⟩
  step m e := match call key m e.1 with
    | .ok (m', p) => if p = e.2 then some m' else none
    | .error _ => none

/-- The most nodes for which no path can be longer than the arrays of the calls. -/
def capacity : Nat := 9227463

/-- A map and the nodes not to be inserted again as they are. -/
structure MapState (key : ι → K) where
  map : SortedMap key
  stale : List ι

/-- What the calls ask for: methods need a root, an insertion a constructed node and room. -/
def MapState.Allows (a : MapState key) : Call ι K → Prop
  | .construct i => i ∉ a.map.elems
  | .first i => a.map.elems = [] ∧ i ∉ a.stale
  | .insert _ i => a.map.elems ≠ [] ∧
      (a.map.find (key i) = none → i ∉ a.stale ∧ a.map.elems.length < capacity)
  | _ => a.map.elems ≠ []

instance (a : MapState key) (c : Call ι K) : Decidable (a.Allows c) := by
  cases c <;> unfold MapState.Allows <;> infer_instance

/-- The next map. -/
def MapState.after (a : MapState key) : Call ι K → MapState key
  | .construct i => { a with stale := a.stale.filter (· ≠ i) }
  | .first i => { a with map := a.map.insert i }
  | .insert _ i => { a with map := a.map.insert i }
  | .remove _ k => { map := a.map.erase k, stale := (a.map.find k).toList ++ a.stale }
  | .replace _ i =>
      { map := a.map.replace i
        stale := if a.map.find (key i) = none then a.stale else a.stale.filter (· ≠ i) }
  | _ => a

/-- What the map hands out. -/
def MapState.returns (a : MapState key) : Call ι K → Option ι
  | .probe k => a.map.find k
  | .remove _ k => a.map.find k
  | .replace _ i => some ((a.map.find (key i)).getD i)
  | .polar d => AvlTree.polar d a.map.elems
  | _ => none

/-- The map's calls as events with what they hand out. -/
def mapSys (key : ι → K) : TransSys (MapState key) (Call ι K × Option ι) where
  init := ⟨.empty key, []⟩
  step a e := if a.Allows e.1 ∧ e.2 = a.returns e.1 then some (a.after e.1) else none

/-! ## One step

  A lemma for each kind of call, and `call_spec` over all of them.  What a call changes is known
  only as far as `ChangesOnly` says; that is enough for the nodes outside the tree (`Follows.next`).
  -/

/-- The store of a map: a tree that represents it, every other node constructed unless it is
    stale. -/
def Follows (a : MapState key) (m : Store ι) : Prop :=
  (∃ t, Represents m t a.map) ∧ a.map.elems.length ≤ capacity ∧ ∀ i, i ∉ a.stale → i ∉ a.map.elems →
    m.Constructed i

omit [DecidableEq ι] in
/-- **A tree of so many nodes** has fewer levels than the arrays have entries. -/
theorem Represents.height_lt (h : Represents m t s) (hsize : s.elems.length ≤ capacity) :
    t.height < TREE_MAX_HEIGHT := by
  have hfib := fib_le_numNodes h.avl
  have hnodes : t.numNodes = s.elems.length := by
    rw [← h.names, BinaryTree.names, List.length_map, length_inorder]
  by_contra hge
  have hge : 33 ≤ t.height := Nat.le_of_not_lt hge
  have hmono : Nat.fib 35 ≤ Nat.fib (t.height + 2) := Nat.fib_mono (by omega)
  have h35 : Nat.fib 35 = 9227465 := by norm_num [Nat.fib_add_two]
  have hcap : capacity = 9227463 := rfl
  omega

omit [DecidableEq ι] in
/-- A node outside the tree stays as it was constructed. -/
theorem constructed_congr {S : List ι} (hc : ChangesOnly .root S m m') (hi : i ∉ S)
    (h : m.Constructed i) : m'.Constructed i :=
  ⟨(hc.1 i hi).trans h.1, fun n => (hc.2.1 i n hi (by simp)).trans (h.2 n)⟩

omit [DecidableEq ι] in
/-- The nodes outside the map, after a call. -/
theorem Follows.next {a a' : MapState key} {S : List ι} (hrep : Represents m' t' a'.map)
    (hsize : a'.map.elems.length ≤ capacity)
    (hc : ChangesOnly .root S m m') (hold : ∀ j, j ∉ a.stale → j ∉ a.map.elems → m.Constructed j)
    (hcover : ∀ j, j ∉ a'.stale → j ∉ a'.map.elems → j ∉ S ∧ j ∉ a.stale ∧ j ∉ a.map.elems ∨
      m'.Constructed j) : Follows a' m' := by
  refine ⟨⟨t', hrep⟩, hsize, fun j hj hmap => ?_⟩
  rcases hcover j hj hmap with ⟨hS, hstale, hout⟩ | hnew
  · exact constructed_congr hc hS (hold j hstale hout)
  · exact hnew

/-- The constructor outside the tree. -/
theorem construct_spec {a : MapState key} (h : Follows a m) (hi : i ∉ a.map.elems) :
    Follows (a.after (.construct i)) (m.construct i) := by
  obtain ⟨⟨t, hrep⟩, hsize, hold⟩ := h
  have hc : ChangesOnly .root [i] m (m.construct i) :=
    ((changesOnly_setState (by simp)).trans (changesOnly_set (.inr ⟨i, by simp, _, rfl⟩))).trans
      (changesOnly_set (.inr ⟨i, by simp, _, rfl⟩))
  have hholds : (m.construct i).Holds (m.construct i).pRoot t :=
    hc.holds (fun j hj hji => hi (List.mem_singleton.mp hji ▸ hrep.names ▸ hj))
      (fun j _ n => by simp) hrep.holds
  refine Follows.next ⟨hholds, hrep.avl, hrep.names⟩ hsize hc hold fun j hj hmap => ?_
  by_cases hji : j = i
  · subst hji
    refine .inr ⟨by simp [Store.construct, m_nState_setState], fun n => ?_⟩
    cases n <;> simp [Store.construct, m_pChild_set]
  · refine .inl ⟨by simpa using hji, fun hin => hj ?_, hmap⟩
    exact List.mem_filter.mpr ⟨hin, by simpa using hji⟩

/-- The first node. -/
theorem first_spec {a : MapState key} (h : Follows a m) (hempty : a.map.elems = [])
    (hi : i ∉ a.stale) :
    Follows (a.after (.first i)) { m with pRoot := some i } := by
  obtain ⟨-, -, hold⟩ := h
  have hnew : m.Constructed i := hold i hi (by simp [hempty])
  have hins :
    (a.map.insert i).elems = [] ++ i :: [] :=
    (SortedMap.insert_split (by rw [hempty]; rfl) (by simp) (by simp)).2
  have hrep : Represents { m with pRoot := some i } (node (i, none) nil nil) (a.map.insert i) :=
    ⟨⟨rfl, hnew.1, hnew.2 _, hnew.2 _⟩, avl_leaf i, hins.symm⟩
  refine Follows.next (S := []) hrep (by rw [MapState.after, hins]; simp [capacity])
    ⟨fun _ _ => rfl, fun _ _ _ _ => rfl, fun h => absurd rfl h⟩ hold
    fun j hj hmap => .inl ⟨by simp, hj, by simp [hempty]⟩

omit [DecidableEq ι] in
/-- Where a map is not empty, the tree has a root. -/
theorem Follows.root {a : MapState key} (h : Follows a m) (hne : a.map.elems ≠ []) :
    ∃ this t, m.pRoot = some this ∧ Represents m t a.map ∧ t.height < TREE_MAX_HEIGHT := by
  obtain ⟨⟨t, hrep⟩, hsize, -⟩ := h
  cases hroot : m.pRoot with
  | none => exact absurd (hrep.pRoot_eq_none.mp hroot) hne
  | some this => exact ⟨this, t, rfl, hrep, hrep.height_lt hsize⟩

/-- **`Insert`**, in both forms: a key that is there is left alone, a new node must be constructed
    and find room. -/
theorem insert_call {a : MapState key} (byPath : Bool) (h : Follows a m) (hne : a.map.elems ≠ [])
    (hi : a.map.find (key i) = none → i ∉ a.stale ∧ a.map.elems.length < capacity) :
    ∃ m', call key m (.insert byPath i) = .ok (m', none) ∧
    Follows (a.after (.insert byPath i)) m' := by
  obtain ⟨this, t, hroot, hrep, hheight⟩ := h.root hne
  have hlen := seek_length (keyOf key) (key i) t
  obtain ⟨m', t', hins, hrep', hc⟩ := Insert_spec hrep hroot (by omega) fun hnone =>
    h.2.2 i (hi hnone).1 (SortedMap.not_mem_of_find hnone)
  have hboth : (Probe key m this (key i) >>= fun r => InsertAt r.1 r.2 i) = .ok m' := by
    rw [InsertAt_eq hrep hroot (fun _ => ?_), hins]
    omega
  refine ⟨m', ?_, Follows.next hrep' ?_ hc h.2.2 fun j hj hmap => .inl ?_⟩
  · rw [call, hroot]
    cases byPath
    · exact (congrArg (· >>= fun m => (.ok (m, none) : Run (Store ι × Option ι))) hins)
    · exact (congrArg (· >>= fun m => (.ok (m, none) : Run (Store ι × Option ι))) hboth)
  · by_cases hnone : a.map.find (key i) = none
    · exact (SortedMap.length_insert_le _ _).trans (hi hnone).2
    · rw [MapState.after, SortedMap.insert, if_neg hnone]
      exact h.2.1
  · exact ⟨hmap, hj, fun hin => hmap (SortedMap.mem_insert_of_mem hin)⟩

/-- **`Probe`** finds what the map finds and changes nothing. -/
theorem probe_call {a : MapState key} (h : Follows a m) (hne : a.map.elems ≠ []) (k : K) :
    call key m (.probe k) = .ok (m, a.map.find k) := by
  obtain ⟨this, t, hroot, hrep, hheight⟩ := h.root hne
  obtain ⟨p, hp, -, haccess⟩ := Probe_spec hrep hroot hheight k
  rw [call, hroot, ← haccess]
  exact congrArg (· >>= fun r : Store ι × ProbePath ι =>
    (.ok (r.1, r.2.Access r.1) : Run (Store ι × Option ι))) hp

/-- **`Remove`**, in both forms, hands out the node the map had; that node is stale from then on. -/
theorem remove_call {a : MapState key} (byPath : Bool) (h : Follows a m) (hne : a.map.elems ≠ [])
    (k : K) :
    ∃ m', call key m (.remove byPath k) = .ok (m', a.map.find k) ∧
    Follows (a.after (.remove byPath k)) m' := by
  obtain ⟨this, t, hroot, hrep, hheight⟩ := h.root hne
  obtain ⟨m', t', hrem, hrep', hc, -⟩ := Remove_spec hrep hroot hheight k
  have hlen := seek_length (keyOf key) k t
  have hboth : (Probe key m this k >>= fun r => RemoveAt key r.1 r.2) = .ok (m', a.map.find k) := by
    rw [RemoveAt_eq hrep hroot ?_, hrem]
    omega
  refine ⟨m', ?_,
    Follows.next hrep' ((SortedMap.length_erase_le _ _).trans h.2.1) hc h.2.2 fun j hj hmap =>
    .inl ?_⟩
  · rw [call, hroot]
    cases byPath
    · exact hrem
    · exact hboth
  · -- a node of the map that is not in the next one is the removed one, and stale
    have hout : j ∉ a.map.elems := by
      intro hin
      have hkey : key j = k := by
        by_contra hkey
        exact hmap (SortedMap.mem_erase.mpr ⟨hin, hkey⟩)
      exact hj (List.mem_append_left _ (by simp [SortedMap.find_eq_some.mpr ⟨hin, hkey⟩]))
    exact ⟨hout, fun hin => hj (List.mem_append_right _ hin), hout⟩

/-- **`Replace`**, in both forms, hands out the old node, or the new one where the key is absent. -/
theorem replace_call {a : MapState key} (byPath : Bool) (h : Follows a m) (hne : a.map.elems ≠ [])
    (i : ι) :
    ∃ m', call key m (.replace byPath i) = .ok (m', some ((a.map.find (key i)).getD i)) ∧
    Follows (a.after (.replace byPath i)) m' := by
  obtain ⟨this, t, hroot, hrep, hheight⟩ := h.root hne
  obtain ⟨m', t', hrepl, hrep', -, hc, hold⟩ := Replace_spec hrep hroot
    (Nat.lt_succ_of_lt hheight) i
  have hlen := seek_length (keyOf key) (key i) t
  have hboth :
    (Probe key m this (key i) >>= fun r => ReplaceAt r.1 r.2 i) = .ok
    (m', (a.map.find (key i)).getD i) := by
    rw [ReplaceAt_eq hrep hroot (Nat.lt_succ_of_lt hheight) ?_, hrepl]
    omega
  refine ⟨m', ?_,
    Follows.next hrep' ((SortedMap.length_replace _ _).trans_le h.2.1) hc h.2.2 fun j hj hmap => ?_⟩
  · rw [call, hroot]
    cases byPath
    · exact congrArg
        (· >>= fun r : Store ι × ι => (.ok (r.1, some r.2) : Run (Store ι × Option ι))) hrepl
    · exact congrArg
        (· >>= fun r : Store ι × ι => (.ok (r.1, some r.2) : Run (Store ι × Option ι))) hboth
  · by_cases hnone : a.map.find (key i) = none
    · simp only [MapState.after, SortedMap.replace_absent hnone, if_pos hnone] at hj hmap
      exact .inl ⟨by rw [SortedMap.replace_absent hnone]; simpa using hmap, hj, hmap⟩
    obtain ⟨x, hx⟩ := Option.ne_none_iff_exists'.mp hnone
    simp only [MapState.after, if_neg hnone] at hj hmap
    have hji : j ≠ i := fun heq => hmap (SortedMap.mem_replace.mpr (.inr ⟨heq, hnone⟩))
    have hjstale : j ∉ a.stale := fun hin => hj (List.mem_filter.mpr ⟨hin, by simpa using hji⟩)
    by_cases hjx : j = x
    · -- the node that was replaced
      exact .inr (hjx ▸ hold x hx (hjx ▸ hji))
    · have hout : j ∉ a.map.elems := fun hin => by
        by_cases hkey : key j = key i
        · exact hjx (Option.some.inj ((SortedMap.find_eq_some.mpr ⟨hin, hkey⟩).symm.trans hx))
        · exact hmap (SortedMap.mem_replace.mpr (.inl ⟨hin, hkey⟩))
      exact .inl ⟨fun hin => (List.mem_append.mp hin).elim hout hmap, hjstale, hout⟩

/-- **`GetMinNode` and `GetMaxNode`** give the ends of the map. -/
theorem polar_call {a : MapState key} (h : Follows a m) (hne : a.map.elems ≠ []) (d : Side) :
    call key m (.polar d) = .ok (m, polar d a.map.elems) := by
  obtain ⟨this, t, hroot, hrep, hheight⟩ := h.root hne
  have hfuel : t.height ≤ TREE_MAX_HEIGHT + 1 := Nat.le_succ_of_le (Nat.le_of_lt hheight)
  obtain ⟨x, hx, hpolar⟩ := GetPolarNode_spec d (hroot ▸ hrep.holds : m.Holds (some this) t) hfuel
  have hpick :
    d.pick (GetMinNode m (TREE_MAX_HEIGHT + 1) this) (GetMaxNode m (TREE_MAX_HEIGHT + 1) this) =
    .ok x := by
    cases d <;> exact hx
  rw [← hrep.names, hpolar, call, hroot]
  exact congrArg (· >>= fun p : ι => (.ok (m, some p) : Run (Store ι × Option ι))) hpick

/-- **One call**: no fault, what the map returns, and the next map. -/
theorem call_spec {a : MapState key} {c : Call ι K} (h : Follows a m) (hc : a.Allows c) :
    ∃ m', call key m c = .ok (m', a.returns c) ∧ Follows (a.after c) m' := by
  cases c with
  | construct i => exact ⟨_, rfl, construct_spec h hc⟩
  | first i => exact ⟨_, rfl, first_spec h hc.1 hc.2⟩
  | insert byPath i => exact insert_call byPath h hc.1 hc.2
  | probe k => exact ⟨m, probe_call h hc k, h⟩
  | remove byPath k => exact remove_call byPath h hc k
  | replace byPath i => exact replace_call byPath h hc i
  | polar d => exact ⟨m, polar_call h hc d, h⟩

/-! ## Runs -/

/-- Before the first call there is no node. -/
theorem follows_init :
    Follows (mapSys key).init (⟨none, fun _ => none, fun _ _ => none⟩ : Store ι) :=
  ⟨⟨nil, rfl, trivial, rfl⟩, Nat.zero_le _, fun _ _ _ => ⟨rfl, fun _ => rfl⟩⟩

/-- One step of the map's system, followed by the tree's. -/
theorem step_follows {a a' : MapState key} {e : Call ι K × Option ι} (h : Follows a m)
    (hstep : (mapSys key).step a e = some a') :
    ∃ m', (treeSys key).step m e = some m' ∧ Follows a' m' := by
  obtain ⟨c, p⟩ := e
  simp only [mapSys] at hstep
  split_ifs at hstep with hallowed
  cases hstep
  obtain ⟨hc, hp⟩ := hallowed
  obtain ⟨m', hcall, hnext⟩ := call_spec h hc
  have hp : a.returns c = p := hp.symm
  exact ⟨m', by simp only [treeSys, hcall, hp, if_true], hnext⟩

/-- What the map allows the nodes can do: the run lemma. -/
theorem exec_follows {es : List (Call ι K × Option ι)} {a : MapState key}
    (h : (mapSys key).exec (mapSys key).init es = some a) :
    ∃ m, (treeSys key).exec (treeSys key).init es = some m ∧ Follows a m :=
  TransSys.exec_simulation (A := treeSys key) (R := Follows) step_follows follows_init h

omit [DecidableEq ι] in
/-- A traversal lists the map, and is at its end for good behind it. -/
theorem Follows.traverse {a : MapState key} (h : Follows a m) (hroot : m.pRoot = some this)
    (n : Nat) :
    (InitTraverse m this >>= traverseCalls m n) = .ok ((List.range n).map (a.map.elems[·]?)) := by
  obtain ⟨⟨t, hrep⟩, hsize, -⟩ := h
  exact traverseCalls_spec hrep hroot (Nat.le_of_lt (hrep.height_lt hsize)) n

/-- **Every program the map allows** runs on the tree without a fault, gets from each call what the
    map returns, and leaves a tree that passes `CheckIntegrity` and lists the map. -/
theorem runs_follow {es : List (Call ι K × Option ι)} {a : MapState key}
    (h : (mapSys key).exec (mapSys key).init es = some a) :
    ∃ m, (treeSys key).exec (treeSys key).init es = some m ∧ (m.pRoot = none ↔ a.map.elems = []) ∧
      ∀ this, m.pRoot = some this → CheckIntegrity key m TREE_MAX_HEIGHT this = .ok true ∧
        ∀ n, (InitTraverse m this >>= traverseCalls m n) = .ok
          ((List.range n).map (a.map.elems[·]?)) := by
  obtain ⟨m, hexec, hfollows⟩ := exec_follows h
  obtain ⟨t, hrep⟩ := hfollows.1
  exact ⟨m, hexec, hrep.pRoot_eq_none, fun this hroot =>
    ⟨hrep.integrity hroot (Nat.le_of_lt (hrep.height_lt hfollows.2.1)), hfollows.traverse hroot⟩⟩

/-- Node 3 carries the key of node 1. -/
def value (i : Nat) : Int := if i = 3 then 1 else i

/-- A rotation, a second node with a key, and a node that is constructed before it comes back. -/
def program : List (Call Nat Int × Option Nat) :=
  [(.first 0, none), (.insert false 1, none), (.insert true 2, none), (.insert true 3, none),
    (.probe 1, some 1), (.replace true 3, some 1), (.insert false 4, none),
    (.remove true 2, some 2), (.construct 2, none), (.insert false 2, none),
    (.remove false 7, none), (.polar .left, some 0), (.polar .right, some 4)]

/-- A program with all kinds of calls, what it hands out, and what the traversal gives behind it. -/
theorem runs_follow_program :
    ∃ m, (treeSys value).exec (treeSys value).init program = some m ∧
    (m.pRoot = none ↔ [0, 3, 2, 4] = ([] : List Nat)) ∧
      ∀ this, m.pRoot = some this → CheckIntegrity value m TREE_MAX_HEIGHT this = .ok true ∧
        ∀ n, (InitTraverse m this >>= traverseCalls m n) = .ok
          ((List.range n).map (([0, 3, 2, 4] : List Nat)[·]?)) :=
  runs_follow (a := ((mapSys value).exec (mapSys value).init program).get (by decide))
    (Option.some_get _).symm

/-! ## History

  The shape of a tree depends on the order of the calls.  What it answers does not, and here that is
  a theorem about whole programs. -/

/-- Who has a key after a call, if `f` says who had it before: a node keeps its key until it is
    removed or replaced. -/
def Call.holder (key : ι → K) (f : K → Option ι) : Call ι K → K → Option ι
  | .first i, k | .insert _ i, k => if k = key i ∧ f (key i) = none then some i else f k
  | .remove _ k', k => if k = k' then none else f k
  | .replace _ i, k => if k = key i ∧ f (key i) ≠ none then some i else f k
  | _, k => f k

/-- Who has a key after a program. -/
def holder (key : ι → K) (es : List (Call ι K × Option ι)) : K → Option ι :=
  es.foldl (fun f e => e.1.holder key f) fun _ => none

/-- One call: what is found behind it is what `holder` makes of what was found before. -/
theorem find_after (a : MapState key) (c : Call ι K) (k : K) :
    (a.after c).map.find k = c.holder key a.map.find k := by
  cases c with
  | first i => exact SortedMap.find_insert a.map i k
  | insert byPath i => exact SortedMap.find_insert a.map i k
  | remove byPath k' => exact SortedMap.find_erase a.map k' k
  | replace byPath i => exact SortedMap.find_replace a.map i k
  | _ => rfl

/-- **The look-ups of a map are told by the calls.** -/
theorem find_exec {es : List (Call ι K × Option ι)} :
    ∀ {a a' : MapState key}, (mapSys key).exec a es = some a' →
    a'.map.find = es.foldl (fun f e => e.1.holder key f) a.map.find := by
  induction es with
  | nil =>
    intro a a' h
    cases h
    rfl
  | cons e es ih =>
    intro a a' h
    obtain ⟨a1, hstep, hrest⟩ := Option.bind_eq_some_iff.mp h
    have hafter : a1 = a.after e.1 := by
      simp only [mapSys] at hstep
      split_ifs at hstep
      exact (Option.some.inj hstep).symm
    rw [ih hrest, hafter, funext (find_after a e.1)]
    rfl

/-- The map is told by the calls alone. -/
theorem find_holder {es : List (Call ι K × Option ι)} {a : MapState key}
    (h : (mapSys key).exec (mapSys key).init es = some a) :
    a.map.find = holder key es := find_exec h

/-- **A tree answers by who has which key**: `Probe` finds the holder, and two programs that leave
    the same holders leave trees that list the same nodes, whatever their shapes. -/
theorem runs_agree {es es' : List (Call ι K × Option ι)} {a a' : MapState key}
    (h : (mapSys key).exec (mapSys key).init es = some a)
    (h' : (mapSys key).exec (mapSys key).init es' = some a')
    (hsame : ∀ k, holder key es k = holder key es' k) :
    ∃ m m', (treeSys key).exec (treeSys key).init es = some m ∧ (treeSys key).exec
      (treeSys key).init es' = some m' ∧
      (m.pRoot = none ↔ m'.pRoot = none) ∧
      ∀ this this', m.pRoot = some this → m'.pRoot = some this' →
        (∀ k, call key m (.probe k) = .ok (m, holder key es k) ∧ call key m' (.probe k) = .ok (m',
          holder key es k)) ∧
        ∀ n, (InitTraverse m this >>= traverseCalls m n) =
          (InitTraverse m' this' >>= traverseCalls m' n) := by
  obtain ⟨m, hexec, hfollows⟩ := exec_follows h
  obtain ⟨m', hexec', hfollows'⟩ := exec_follows h'
  have hmap : a.map = a'.map := by
    apply SortedMap.ext_find
    intro k
    rw [find_holder h, find_holder h', hsame k]
  obtain ⟨t, hrep⟩ := hfollows.1
  obtain ⟨t', hrep'⟩ := hfollows'.1
  refine ⟨m, m', hexec, hexec', ?_, fun this this' hroot hroot' => ⟨fun k => ?_, fun n => ?_⟩⟩
  · rw [hrep.pRoot_eq_none, hrep'.pRoot_eq_none, hmap]
  · have hne : a.map.elems ≠ [] := fun hnil => by
      rw [hrep.pRoot_eq_none.mpr hnil] at hroot
      cases hroot
    have hprobe := probe_call hfollows hne k
    have hprobe' := probe_call hfollows' (hmap ▸ hne) k
    rw [← hmap] at hprobe'
    rw [find_holder h] at hprobe hprobe'
    exact ⟨hprobe, hprobe'⟩
  · rw [hfollows.traverse hroot, hfollows'.traverse hroot', hmap]

/-- Two orders; the roots differ. -/
def upwards : List (Call Nat Int × Option Nat) :=
  [(.first 0, none), (.insert false 1, none), (.insert false 2, none), (.insert true 4, none)]

/-- The second one, with a node that comes and goes. -/
def downwards : List (Call Nat Int × Option Nat) :=
  [(.first 4, none), (.insert false 2, none), (.insert false 5, none), (.insert true 1, none),
    (.remove false 5, some 5), (.insert true 0, none)]

/-- The same nodes inserted in two orders. -/
theorem runs_agree_orders :
    ∃ m m', (treeSys value).exec (treeSys value).init upwards = some m ∧ (treeSys value).exec
      (treeSys value).init downwards = some m' ∧
      (m.pRoot = none ↔ m'.pRoot = none) ∧
      ∀ this this', m.pRoot = some this → m'.pRoot = some this' →
        (∀ k, call value m (.probe k) = .ok (m, holder value upwards k) ∧ call value m' (.probe k) =
          .ok (m', holder value upwards k)) ∧
        ∀ n, (InitTraverse m this >>= traverseCalls m n) =
          (InitTraverse m' this' >>= traverseCalls m' n) := by
  have hup :
    (mapSys value).exec (mapSys value).init upwards =
    some (((mapSys value).exec (mapSys value).init upwards).get (by decide)) :=
    (Option.some_get _).symm
  have hdown : (mapSys value).exec (mapSys value).init downwards =
      some (((mapSys value).exec (mapSys value).init downwards).get (by decide)) :=
        (Option.some_get _).symm
  refine runs_agree hup hdown fun k => ?_
  rw [← find_holder hup, ← find_holder hdown]
  exact congrArg (SortedMap.find · k) (SortedMap.ext_elems (by decide))

example :
    ((treeSys value).exec (treeSys value).init upwards).map (·.pRoot) ≠
      ((treeSys value).exec (treeSys value).init downwards).map (·.pRoot) := by
  decide

end StevenProgram.AvlTree
