/-
  The lists of a service entry as they are in memory.

  A `std::list` is a ring of nodes through a sentinel inside the list itself; its constructor links
  the sentinel to itself, and `addEntry` runs no constructor: it zeroes the memory.  A zeroed list
  is not empty (its sentinel does not point to itself), and the first step of a loop over it goes
  through NULL.

  1.  **Lists in memory** — `RawList`, with `zeroed` and `built`, the list after its constructor.

  2.  **What they represent** (`Represents`) — `any_eq`, `push_back_eq`.

  3.  **Databases** (`Agrees`) — `exec_agrees`: with built lists the database is the one of
     `Someip.ServiceDatabase`.

  4.  **New services** — `built_usable` and `fresh_service_unusable`.

  The same code is run on both kinds of lists; only `fresh` differs.  So the refinement says that
  the code is right but for the missing constructor, and the last part what its absence does.
-/
import StevenProgram.Lib.Ring
import StevenProgram.Someip.ServiceDatabase

namespace StevenProgram

namespace Someip

/-! ## Lists in memory

  The three functions follow the header of the library: `empty` compares a pointer with the address
  of the sentinel, the loop goes from `begin()` to it, and a node is linked in front of it. -/

/-- What `_M_next` and `_M_prev` point to; nodes are numbered as they are made. -/
inductive Ptr where
  | null
  | sentinel
  | node (k : Nat)
  deriving DecidableEq, Repr

/-- The pointers of the sentinel and the nodes, and the nodes as they were made. -/
structure RawList (α : Type) where
  links : Links Ptr
  nodes : List α

namespace RawList

variable {α : Type}

/-- After `memset`. -/
def zeroed (α : Type) : RawList α := ⟨⟨fun _ => .null, fun _ => .null⟩, []⟩

/-- After its constructor. -/
def built (α : Type) : RawList α := ⟨(zeroed α).links.single .sentinel, []⟩

/-- `_M_node._M_next == &_M_node` -/
def empty (list : RawList α) : Bool := list.links.next .sentinel == .sentinel

/-- The loop from `it` to the sentinel. -/
def anyFrom (p : α → Bool) (list : RawList α) : (fuel : Nat) → Ptr → Run Bool
  | 0, _ => .error .diverged
  | _ + 1, .sentinel => .ok false
  | _ + 1, .null => .error .nullPtr
  | fuel + 1, .node k =>
      match list.nodes[k]? with
      | none => .error .outOfBounds
      | some a => if p a then .ok true else anyFrom p list fuel (list.links.next (.node k))

/-- The loop over the list, with enough turns for all its nodes. -/
def any (p : α → Bool) (list : RawList α) : Run Bool :=
  list.anyFrom p (list.nodes.length + 1) (list.links.next .sentinel)

/-- A new node in front of the sentinel. -/
def push_back (list : RawList α) (a : α) : Run (RawList α) :=
  -- `__position->_M_prev->_M_next = this`
  if list.links.prev .sentinel = .null then .error .nullPtr
  else .ok ⟨list.links.insertBefore .sentinel (.node list.nodes.length), list.nodes ++ [a]⟩

/-- The sentinel linked to itself. -/
def SelfLinked (list : RawList α) : Prop :=
  list.links.next .sentinel = .sentinel ∧ list.links.prev .sentinel = .sentinel

end RawList

instance : StdList RawList where
  empty := RawList.empty
  any := RawList.any
  push_back := RawList.push_back

/-! ## What they represent

  Nodes are only ever appended here, so the ring goes through them in the order they were made. -/

section Represents

variable {α : Type} {list : RawList α} {xs : List α}

/-- The nodes of a list of `n`, in order. -/
def nodesOf (n : Nat) : List Ptr := (List.range n).map Ptr.node

/-- The list in memory holds these elements. -/
structure Represents (list : RawList α) (xs : List α) : Prop where
  nodes : list.nodes = xs
  ring : list.links.IsRing (.sentinel :: nodesOf xs.length)

/-- One node more. -/
theorem nodesOf_succ (n : Nat) : nodesOf (n + 1) = nodesOf n ++ [.node n] := by
  rw [nodesOf, List.range_succ, List.map_append]
  rfl

/-- A list that was built is empty. -/
theorem built_represents : Represents (RawList.built α) [] := by
  constructor
  · rfl
  · exact Links.isRing_single _ _

/-- Its sentinel points to itself. -/
theorem built_selfLinked : (RawList.built α).SelfLinked := by
  constructor <;> rfl

/-- Where an iterator is after `k` steps: at a node, or at the sentinel behind the last. -/
def iteratorAt (n k : Nat) : Ptr := if k < n then .node k else .sentinel

/-- **Following `next`** from the sentinel runs through the nodes in order, and back to the sentinel
    behind the last. -/
theorem Represents.next_eq (h : Represents list xs) :
    list.links.next .sentinel = iteratorAt xs.length 0 ∧
    ∀ k < xs.length, list.links.next (.node k) = iteratorAt xs.length (k + 1) := by
  have hchain := List.isChain_iff_getElem.mp (Links.isRing_cons.mp h.ring).2
  have hlen : (Ptr.sentinel :: (nodesOf xs.length ++ [.sentinel])).length = xs.length + 2 := by
    simp [nodesOf]
  have hget :
    ∀ k (hk : k < (nodesOf xs.length ++ [Ptr.sentinel]).length),
    (nodesOf xs.length ++ [Ptr.sentinel])[k] = iteratorAt xs.length k := by
    intro k hk
    rw [iteratorAt]
    split
    · next hlt =>
      rw [List.getElem_append_left (by simpa [nodesOf] using hlt)]
      simp [nodesOf]
    · next hge =>
      rw [List.getElem_append_right (by simpa [nodesOf] using hge)]
      simp
  constructor
  · exact (hchain 0 (by omega)).1.trans (hget 0 (by simp))
  · intro k hk
    have hstep := (hchain (k + 1) (by omega)).1
    rw [List.getElem_cons_succ, List.getElem_cons_succ, hget, hget, iteratorAt, if_pos hk] at hstep
    exact hstep

/-- `empty` answers for the list. -/
theorem Represents.empty_eq (h : Represents list xs) : list.empty = xs.isEmpty := by
  rw [RawList.empty, h.next_eq.1]
  cases xs <;> rfl

/-- **The loop** goes over the elements that are left, by induction on its fuel; with one turn for
    each of them and one for the sentinel it ends. -/
theorem Represents.anyFrom_eq (h : Represents list xs) (p : α → Bool) :
    ∀ (fuel k : Nat), k ≤ xs.length →
    xs.length < k + fuel →
      list.anyFrom p fuel (iteratorAt xs.length k) = .ok ((xs.drop k).any p) := by
  intro fuel
  induction fuel with
  | zero =>
    intro k hk hfuel
    omega
  | succ fuel ih =>
    intro k hk hfuel
    rw [iteratorAt]
    split
    · next hlt =>
      rw [RawList.anyFrom, h.nodes, List.getElem?_eq_getElem hlt, List.drop_eq_getElem_cons hlt,
        List.any_cons]
      simp only []
      rw [h.next_eq.2 k hlt, ih (k + 1) hlt (by omega)]
      cases p xs[k] <;> rfl
    · next hge =>
      rw [List.drop_eq_nil_of_le (Nat.le_of_not_lt hge)]
      rfl

/-- So does a walk over it. -/
theorem Represents.any_eq (h : Represents list xs) (p : α → Bool) : list.any p = .ok
    (xs.any p) := by
  rw [RawList.any, h.next_eq.1, h.nodes, h.anyFrom_eq p _ 0 (Nat.zero_le _) (by omega)]
  rfl

/-- `push_back` appends: the new node stands between the last one and the sentinel. -/
theorem Represents.push_back_eq (h : Represents list xs) (a : α) :
    ∃ list', list.push_back a = .ok list' ∧ Represents list' (xs ++ [a]) := by
  have hnew : Ptr.node xs.length ∉ Ptr.sentinel :: nodesOf xs.length := by
    intro hmem
    rcases List.mem_cons.mp hmem with heq | hmem
    · cases heq
    · obtain ⟨k, hk, heq⟩ := List.mem_map.mp hmem
      obtain rfl : k = xs.length := Ptr.node.inj heq
      exact absurd (List.mem_range.mp hk) (Nat.lt_irrefl _)
  have hprev : list.links.prev .sentinel ≠ .null := by
    have hmem := Links.IsRing.prev_mem
      (show list.links.IsRing ([] ++ .sentinel :: nodesOf xs.length) from h.ring)
    intro hnull
    rw [hnull] at hmem
    rcases List.mem_cons.mp hmem with heq | hmem
    · cases heq
    · obtain ⟨k, -, heq⟩ := List.mem_map.mp hmem
      cases heq
  rw [RawList.push_back, if_neg hprev, h.nodes]
  refine ⟨_, rfl, rfl, ?_⟩
  rw [List.length_append, List.length_singleton, nodesOf_succ]
  exact h.ring.insertBefore hnew

end Represents

/-! ## Databases

  A forward simulation: each call in memory is a call of the database, with the same ending, and
  leaves lists that represent those of the database. -/

/-- An entry in memory holds an entry. -/
structure EntryAgrees (entry : someip_service_entry_t RawList)
    (entry' : someip_service_entry_t List) : Prop where
  cfg : entry.cfg = entry'.cfg
  items : ∀ k, Represents (entry.items k) (entry'.items k)

/-- A database in memory holds a database. -/
structure Agrees (raw : serviceDatabase RawList) (db : serviceDatabase List) : Prop where
  locked : raw.locked = db.locked
  entries : List.Forall₂ EntryAgrees raw.mServiceList db.mServiceList

section Agrees

variable {raw : serviceDatabase RawList} {db : serviceDatabase List}
  {service_id instance_id : UInt16}

/-- Equal lists set into equal entries. -/
theorem EntryAgrees.setItems {entry : someip_service_entry_t RawList}
    {entry' : someip_service_entry_t List} (h : EntryAgrees entry entry')
    {k : Kind} {list : RawList k.Item} {xs : List k.Item} (hlist : Represents list xs) :
    EntryAgrees (entry.setItems k list) (entry'.setItems k xs) := by
  constructor
  · rw [cfg_setItems, cfg_setItems, h.cfg]
  · intro k'
    by_cases hk : k' = k
    · subst hk
      rw [items_setItems, items_setItems]
      exact hlist
    · rw [items_setItems_ne entry hk, items_setItems_ne entry' hk]
      exact h.items k'

/-- The two loops over the services stop together. -/
theorem findService_agrees {l : List (someip_service_entry_t RawList)}
    {l' : List (someip_service_entry_t List)}
    (h : List.Forall₂ EntryAgrees l l') :
    (findService service_id instance_id l = none ∧ findService service_id instance_id l' = none) ∨
    ∃ pre entry post pre' entry' post', findService service_id instance_id l =
      some (pre, entry, post) ∧
      findService service_id instance_id l' = some (pre', entry', post') ∧
      List.Forall₂ EntryAgrees pre pre' ∧
      EntryAgrees entry entry' ∧ List.Forall₂ EntryAgrees post post' := by
  induction h with
  | nil => exact .inl ⟨rfl, rfl⟩
  | @cons entry entry' l l' hentry hl ih =>
    have hkey : entry.hasKey service_id instance_id = entry'.hasKey service_id instance_id := by
      rw [someip_service_entry_t.hasKey, someip_service_entry_t.hasKey, hentry.cfg]
    rw [findService, findService, hkey]
    split
    · exact .inr ⟨_, _, _, _, _, _, rfl, rfl, .nil, hentry, hl⟩
    · rcases ih with ⟨hnone, hnone'⟩ | ⟨pre, e, post, pre', e', post', hsome, hsome', hpre,
        he, hpost⟩
      · rw [hnone, hnone']
        exact .inl ⟨rfl, rfl⟩
      · rw [hsome, hsome']
        exact .inr ⟨_, _, _, _, _, _, rfl, rfl, .cons hentry hpre, he, hpost⟩

/-- The scan for a duplicate finds the same. -/
theorem itemExists_agrees {k : Kind} {list : RawList k.Item} {xs : List k.Item}
    (h : Represents list xs) (id : UInt16) :
    serviceDatabase.itemExists k id list = serviceDatabase.itemExists k id xs := by
  show (if !list.empty then list.any _ else .ok false) =
    (if !xs.isEmpty then .ok (xs.any _) else .ok false)
  rw [h.empty_eq, h.any_eq]

/-- Equal databases have the same keys. -/
theorem keys_agree {l : List (someip_service_entry_t RawList)}
    {l' : List (someip_service_entry_t List)} (h : List.Forall₂ EntryAgrees l l')
    (key : service_key_t) :
    (∃ entry ∈ l, entry.cfg.s_key = key) ↔ ∃ entry ∈ l', entry.cfg.s_key = key := by
  induction h with
  | nil => simp
  | cons hentry _ ih => simp only [List.mem_cons, exists_eq_or_imp, ih, hentry.cfg]

/-- An entry that is built, list by list, is stored in both. -/
theorem addEntry_agrees (h : Agrees raw db) (hl : db.locked = false)
    (service : someip_service_cfg_t) (mem : Memory)
    {ending : Ending} {db' : serviceDatabase List}
    (hrun : db.addEntry constructed service mem = .ok (ending, db')) :
    ∃ raw', raw.addEntry RawList.built service mem = .ok (ending, raw') ∧ Agrees raw' db' := by
  have hkeys := keys_agree h.entries service.s_key
  have hlraw : raw.locked = false := h.locked.trans hl
  by_cases hhas : ∃ entry ∈ db.mServiceList, entry.cfg.s_key = service.s_key
  · rw [addEntry_exist constructed hl hhas] at hrun
    cases hrun
    exact ⟨raw, addEntry_exist RawList.built hlraw (hkeys.mpr hhas) mem, h⟩
  · rw [addEntry_new constructed hl hhas] at hrun
    have hraw := addEntry_new RawList.built hlraw (fun hr => hhas (hkeys.mp hr)) mem
    obtain ⟨malloc, node⟩ := mem
    cases malloc with
    | false =>
      cases hrun
      exact ⟨raw, hraw, h⟩
    | true =>
      cases node with
      | false =>
        cases hrun
        exact ⟨_, hraw, rfl, h.entries⟩
      | true =>
        cases hrun
        refine ⟨_, hraw, h.locked, ?_⟩
        refine List.rel_append h.entries (.cons ?_ .nil)
        constructor
        · rfl
        · intro k
          cases k <;> exact built_represents

/-- An item is appended in both. -/
theorem addItem_agrees (h : Agrees raw db) (hl : db.locked = false) (k : Kind) (item : k.Item)
    (mem : Memory)
    {ending : Ending} {db' : serviceDatabase List}
    (hrun : db.addItem k service_id instance_id item mem = .ok (ending, db')) :
    ∃ raw', raw.addItem k service_id instance_id item mem = .ok (ending, raw') ∧
    Agrees raw' db' := by
  have hlraw : raw.locked = false := h.locked.trans hl
  rcases findService_agrees h.entries with ⟨hnone, hnone'⟩ | ⟨pre, e, post, pre', e', post', hsome,
    hsome', hpre, he, hpost⟩
  · rw [addItem_absent hl hnone'] at hrun
    cases hrun
    exact ⟨raw, addItem_absent hlraw hnone, h⟩
  · rw [addItem_found hl hsome', itemExists_eq, Run.ok_bind] at hrun
    rw [addItem_found hlraw hsome, itemExists_agrees (he.items k), itemExists_eq, Run.ok_bind]
    split at hrun
    · next hexist =>
      cases hrun
      rw [if_pos hexist]
      exact ⟨_, rfl, h⟩
    · next hexist =>
      rw [if_neg hexist]
      obtain ⟨malloc, node⟩ := mem
      cases malloc with
      | false =>
        cases hrun
        exact ⟨_, rfl, h⟩
      | true =>
        cases node with
        | false =>
          cases hrun
          exact ⟨_, rfl, rfl, h.entries⟩
        | true =>
          obtain ⟨list, hpush, hlist⟩ := (he.items k).push_back_eq item
          have hpush : StdList.push_back (e.items k) item = Except.ok list := hpush
          rw [hpush]
          cases hrun
          refine ⟨_, rfl, h.locked, ?_⟩
          exact List.rel_append hpre (.cons (he.setItems hlist) hpost)

/-- **With constructed lists the database in memory is the database.** -/
theorem exec_agrees (h : Agrees raw db) (hl : db.locked = false) {call : Call} {ending : Ending}
    {db' : serviceDatabase List}
    (hrun : db.exec constructed call = .ok (ending, db')) :
    ∃ raw', raw.exec RawList.built call = .ok (ending, raw') ∧ Agrees raw' db' := by
  cases call with
  | addEntry service mem => exact addEntry_agrees h hl service mem hrun
  | addItem k service_id instance_id item mem =>
    rw [exec_addItem] at hrun ⊢
    exact addItem_agrees h hl k item mem hrun

/-- Every run in memory is one of the database. -/
theorem trace_agrees {es : List (Call × Ending)}
    (h : (databaseSys RawList.built).Trace (fun _ _ _ => True) es raw) :
    ∃ db, (databaseSys constructed).Trace (fun _ _ _ => True) es db ∧ Agrees raw db := by
  have hsim : ∃ db, (databaseSys constructed).Trace (fun _ _ _ => True) es db ∧ Agrees raw db ∧
      (db.locked = false → Valid db) := by
    refine TransSys.Trace.simulation (R := fun raw db => Agrees raw db ∧
      (db.locked = false → Valid db))
      ⟨⟨rfl, .nil⟩, fun _ => valid_init⟩ ?_ h
    intro raw db e raw' _ hr hs _
    obtain ⟨hagrees, hvalid⟩ := hr
    obtain ⟨call, ending⟩ := e
    have hrun := (databaseSys_step RawList.built).mp hs
    have hl : db.locked = false := hagrees.locked.symm.trans (exec_was_unlocked _ hrun)
    obtain ⟨ending', db', hrun', hvalid'⟩ :
      ∃ ending' db', db.exec constructed call = .ok (ending', db') ∧
        (db'.locked = false → Valid db') := by
      by_cases hp : call.Provided db
      · obtain ⟨status, db', hrun', -⟩ := exec_meets (hvalid hl) call hp
        exact ⟨_, db', hrun', fun _ => (valid_step (hvalid hl) hrun').1⟩
      · exact ⟨_, _, exec_bad_alloc (hvalid hl) call hp, fun hl' => nomatch hl'⟩
    obtain ⟨raw'', hraw, hagrees'⟩ := exec_agrees hagrees hl hrun'
    obtain ⟨rfl, rfl⟩ := Prod.mk.inj (Except.ok.inj (hraw.symm.trans hrun))
    exact ⟨db', (databaseSys_step constructed).mpr hrun', hagrees', hvalid'⟩
  obtain ⟨db, htrace, hagrees, -⟩ := hsim
  exact ⟨db, htrace, hagrees⟩

end Agrees

/-! ## New services

  `Usable` asks for what the first `addMethod`, `addEvent` or `addField` needs. -/

/-- The lists of a service are empty ones, and take a first item. -/
structure Usable (db : serviceDatabase RawList) (key : service_key_t) : Prop where
  selfLinked : ∀ entry ∈ db.mServiceList, entry.cfg.s_key = key → ∀ k, (entry.items k).SelfLinked
  stores : ∀ k item, ∃ pre entry post list, db.mServiceList = pre ++ entry :: post ∧
    entry.cfg.s_key = key ∧ Represents list [item] ∧
    db.addItem k key.service_id key.instance_id item ⟨true, true⟩ =
      .ok (.returns .STATUS_SUCCESS,
        { db with mServiceList := pre ++ entry.setItems k list :: post })

section NewService

variable {fresh : (α : Type) → RawList α} {db db' : serviceDatabase RawList}
  {service : someip_service_cfg_t} {mem : Memory}

/-- The search passes over services that have other keys, and stops at the one behind them. -/
theorem findService_append_new (entry : someip_service_entry_t RawList) :
    ∀ {l : List (someip_service_entry_t RawList)},
    (¬ ∃ e ∈ l, e.cfg.s_key = entry.cfg.s_key) →
    findService entry.cfg.s_key.service_id entry.cfg.s_key.instance_id (l ++ [entry]) =
      some (l, entry, []) := by
  intro l
  induction l with
  | nil =>
    intro _
    rw [List.nil_append, findService, if_pos (hasKey_iff.mpr rfl)]
  | cons first rest ih =>
    intro hnew
    have hne : ¬ first.hasKey entry.cfg.s_key.service_id entry.cfg.s_key.instance_id = true := by
      intro hkey
      exact hnew ⟨first, List.mem_cons_self .., hasKey_iff.mp hkey⟩
    have hrest : ¬ ∃ e ∈ rest, e.cfg.s_key = entry.cfg.s_key := by
      rintro ⟨e, he, hkey⟩
      exact hnew ⟨e, List.mem_cons_of_mem _ he, hkey⟩
    rw [List.cons_append, findService, if_neg hne, ih hrest]
    rfl

/-- **A service that was added** is the last one, with lists that nobody has touched. -/
theorem added_service (hrun : db.addEntry fresh service mem = .ok (.returns .STATUS_SUCCESS, db')) :
    db'.locked = false ∧ db'.mServiceList = db.mServiceList ++
      [serviceDatabase.newEntry fresh service] ∧
    (∀ entry ∈ db'.mServiceList, entry.cfg.s_key = service.s_key →
      entry = serviceDatabase.newEntry fresh service) ∧
    findService service.s_key.service_id service.s_key.instance_id db'.mServiceList =
      some (db.mServiceList, serviceDatabase.newEntry fresh service, []) := by
  have hl := exec_was_unlocked fresh (show db.exec fresh (.addEntry service mem) = _ from hrun)
  by_cases hhas : ∃ entry ∈ db.mServiceList, entry.cfg.s_key = service.s_key
  · rw [addEntry_exist fresh hl hhas] at hrun
    cases hrun
  · rw [addEntry_new fresh hl hhas] at hrun
    split at hrun
    · cases hrun
    · split at hrun
      · cases hrun
      cases hrun
      refine ⟨hl, rfl, ?_, ?_⟩
      · intro entry hentry hkey
        rcases List.mem_append.mp hentry with hold | hnew
        · exact absurd ⟨entry, hold, hkey⟩ hhas
        · exact List.mem_singleton.mp hnew
      · exact findService_append_new (serviceDatabase.newEntry fresh service) hhas

/-- With constructed lists every new service is usable. -/
theorem built_usable
    (hrun : db.addEntry RawList.built service mem = .ok (.returns .STATUS_SUCCESS, db')) :
    Usable db' service.s_key := by
  obtain ⟨hl, hlist, hlast, hfound⟩ := added_service hrun
  have hitems :
    ∀ k, (serviceDatabase.newEntry RawList.built service).items k = RawList.built k.Item := by
    intro k
    cases k <;> rfl
  constructor
  · intro entry hentry hkey k
    rw [hlast entry hentry hkey, hitems]
    exact built_selfLinked
  · intro k item
    obtain ⟨list, hpush, hrep⟩ := built_represents.push_back_eq item
    refine ⟨_, _, _, list, hlist, rfl, hrep, ?_⟩
    have hpush : StdList.push_back (RawList.built k.Item) item = Except.ok list := hpush
    rw [addItem_found hl hfound, hitems, itemExists_agrees built_represents, itemExists_eq]
    simp only [Run.ok_bind, hpush]
    rfl

/-- **No new service is usable**, whatever the store was before: its lists are not linked to
    themselves, and the first method, event or field is looked for through NULL. -/
theorem fresh_service_unusable
    (hrun : db.addEntry RawList.zeroed service mem = .ok (.returns .STATUS_SUCCESS, db')) :
    ¬ Usable db' service.s_key ∧
    (∀ entry ∈ db'.mServiceList, entry.cfg.s_key = service.s_key → ∀ k,
      ¬ (entry.items k).SelfLinked) ∧
    ∀ k item mem, db'.addItem k service.s_key.service_id service.s_key.instance_id item mem =
      .error .nullPtr := by
  obtain ⟨hl, hlist, hlast, hfound⟩ := added_service hrun
  have hitems :
    ∀ k, (serviceDatabase.newEntry RawList.zeroed service).items k = RawList.zeroed k.Item := by
    intro k
    cases k <;> rfl
  have hnull :
    ∀ k item mem, db'.addItem k service.s_key.service_id service.s_key.instance_id item mem =
    .error .nullPtr := by
    intro k item mem
    rw [addItem_found hl hfound, hitems]
    rfl
  refine ⟨?_, ?_, hnull⟩
  · intro husable
    obtain ⟨_, _, _, _, -, -, -, hrun'⟩ := husable.stores .method ⟨0, 0, 0⟩
    cases (hnull .method ⟨0, 0, 0⟩ ⟨true, true⟩).symm.trans hrun'
  · intro entry hentry hkey k hself
    rw [hlast entry hentry hkey, hitems] at hself
    cases hself.1

/-- The first service. -/
theorem fresh_service_unusable_first : ∃ db', (serviceDatabase.mk false []).addEntry RawList.zeroed
    ⟨0, ⟨7, 1⟩, ⟨0, 0⟩, ⟨0, 0⟩, ⟨0, 0⟩⟩ ⟨true, true⟩ =
    .ok (.returns .STATUS_SUCCESS, db') ∧ ¬ Usable db' ⟨7, 1⟩ := by
  have hrun :
    (databaseSys RawList.zeroed).init.addEntry RawList.zeroed ⟨0, ⟨7, 1⟩, ⟨0, 0⟩, ⟨0, 0⟩, ⟨0, 0⟩⟩
    ⟨true, true⟩ =
    .ok (.returns .STATUS_SUCCESS,
      ⟨false, [serviceDatabase.newEntry RawList.zeroed ⟨0, ⟨7, 1⟩, ⟨0, 0⟩, ⟨0, 0⟩, ⟨0, 0⟩⟩]⟩) := rfl
  exact ⟨_, hrun, (fresh_service_unusable hrun).1⟩

/-- After the first service is added, its first method is looked for through NULL. -/
theorem zeroed_list_faults :
    ¬ ∀ (db db' : serviceDatabase RawList) (service : someip_service_cfg_t) (mem : Memory),
    (databaseSys RawList.zeroed).Reachable db → db.addEntry RawList.zeroed service mem = .ok
      (.returns .STATUS_SUCCESS, db') →
      Usable db' service.s_key := by
  intro hall
  have h0 : (databaseSys RawList.zeroed).Reachable _ := .init
  obtain ⟨pre, entry, post, list, -, -, -, hrun⟩ :=
    (hall _ _ ⟨0, ⟨7, 1⟩, ⟨0, 0⟩, ⟨0, 0⟩, ⟨0, 0⟩⟩ ⟨true, true⟩ h0 rfl).stores .method ⟨9, 0, 0⟩
  cases hrun

end NewService

end Someip

end StevenProgram
