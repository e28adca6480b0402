/-
  `serviceDatabase` (`serviceDatabase.cpp`): the services of a SOME/IP agent with their methods,
  events and fields.

  The code is written against what it asks of a `std::list` (`StdList`), because the three lists of
  an entry are where it goes wrong: an entry is `malloc`ed and zeroed, and its lists are never
  constructed.  What a new list is, is a parameter (`fresh`).  Here it is an empty list and the
  database keeps its invariant (`database_run`); `Someip.RawList` has the lists that the code really
  makes.

  1.  **Code** — `addEntry`, and `addItem` with `addMethod`, `addEvent` and `addField`.

  2.  **Lists that are constructed** — `Verdict` is when a call has to return which status, `Stores`
     what a successful one changes; a call `Meets` both (`addEntry_meets`, `addItem_meets`).

  3.  **Runs** — `Valid` is the invariant (keys of services and ids of items distinct, the mutex
     free), `InOrder` says where the stored items come from; `database_run` has both.

  A list of pointers to entries is the list of the entries.  There are two allocations on the way to
  a new item, and each gives memory or not, call by call (`Memory`): the code looks at what `malloc`
  returns, but not for the exception of `push_back`, which has to make a node.  That one leaves the
  mutex locked (`exec_bad_alloc`), and the next call waits for ever.
-/
import Mathlib.Data.List.Nodup
import StevenProgram.Common.Mem
import StevenProgram.Lib.TransSys

namespace StevenProgram

namespace Someip

/-! ## Code -/

/-- What the calls return. -/
inductive Status where
  | STATUS_SUCCESS
  | STATUS_FAILED
  | STATUS_ERR_MALLOC
  | STATUS_EXIST
  deriving DecidableEq, Repr

/-- How a call ends: with what it returns, or with the exception that comes out of `push_back`. -/
inductive Ending where
  | returns (status : Status)
  | bad_alloc
  deriving DecidableEq, Repr

/-- What memory a call finds: for `malloc`, and for the node that `push_back` makes if it comes to
    that. -/
structure Memory where
  /-- for the item itself -/
  malloc : Bool
  /-- for the node that refers to it -/
  node : Bool
  deriving DecidableEq, Repr

/-- Both allocations give memory. -/
def Memory.enough (mem : Memory) : Bool := mem.malloc && mem.node

/-- A `void *` or a pointer to a function; 0 is NULL. -/
abbrev Address : Type := Nat

/-- What a service is found by. -/
structure service_key_t where
  service_id : UInt16
  instance_id : UInt16
  deriving DecidableEq, Repr

/-- An address and a port. -/
structure esomeip_endpoint_t where
  v4_addr : UInt32
  v4_port : UInt16
  deriving DecidableEq, Repr

/-- What `addEntry` is given. -/
structure someip_service_cfg_t where
  role : UInt32
  s_key : service_key_t
  tcp : esomeip_endpoint_t
  udp : esomeip_endpoint_t
  mul_udp : esomeip_endpoint_t
  deriving DecidableEq, Repr

/-- A method; the address of its handler is kept and not looked at. -/
structure someip_method_t where
  method_id : UInt16
  args : Address
  on_message : Address
  deriving DecidableEq, Repr

/-- An event, with its handler. -/
structure someip_event_t where
  event_id : UInt16
  args : Address
  on_message : Address
  deriving DecidableEq, Repr

/-- A field, with what gets and what sets it. -/
structure someip_field_t where
  field_id : UInt16
  args : Address
  get_func : Address
  set_func : Address
  deriving DecidableEq, Repr

/-- What the code does with a `std::list`. -/
class StdList (L : Type → Type) where
  empty : {α : Type} → L α → Bool
  /-- the loop from `begin()` to `end()` for an element -/
  any : {α : Type} → (α → Bool) → L α → Run Bool
  /-- with the node in hand -/
  push_back : {α : Type} → L α → α → Run (L α)

/-- A service as it is stored: its configuration, and three lists. -/
structure someip_service_entry_t (L : Type → Type) where
  cfg : someip_service_cfg_t
  mMethodList : L someip_method_t
  mEventList : L someip_event_t
  mFieldList : L someip_field_t
  is_available : UInt32
  on_available_handler : Address
  args : Address

/-- The three lists of an entry. -/
inductive Kind where
  | method
  | event
  | field
  deriving DecidableEq, Repr

/-- What a list holds. -/
def Kind.Item : Kind → Type
  | .method => someip_method_t
  | .event => someip_event_t
  | .field => someip_field_t

/-- What an item of it is found by. -/
def Kind.id : (k : Kind) → k.Item → UInt16
  | .method => someip_method_t.method_id
  | .event => someip_event_t.event_id
  | .field => someip_field_t.field_id

section Entry

variable {L : Type → Type}

/-- The list of a kind. -/
def someip_service_entry_t.items (entry : someip_service_entry_t L) : (k : Kind) → L k.Item
  | .method => entry.mMethodList
  | .event => entry.mEventList
  | .field => entry.mFieldList

/-- The entry with another list of that kind. -/
def someip_service_entry_t.setItems (entry : someip_service_entry_t L) :
    (k : Kind) → L k.Item → someip_service_entry_t L
  | .method, list => { entry with mMethodList := list }
  | .event, list => { entry with mEventList := list }
  | .field, list => { entry with mFieldList := list }

/-- The list that was set. -/
@[simp] theorem items_setItems (entry : someip_service_entry_t L) (k : Kind) (list : L k.Item) :
    (entry.setItems k list).items k = list := by
  cases k <;> rfl

/-- The other lists stay. -/
theorem items_setItems_ne (entry : someip_service_entry_t L) {k k' : Kind} (hk : k' ≠ k)
    (list : L k.Item) :
    (entry.setItems k list).items k' = entry.items k' := by
  cases k <;> cases k' <;> first | rfl | exact absurd rfl hk

/-- And so does the configuration. -/
@[simp] theorem cfg_setItems (entry : someip_service_entry_t L) (k : Kind) (list : L k.Item) :
    (entry.setItems k list).cfg = entry.cfg := by
  cases k <;> rfl

/-- `(service_id == entry->cfg.s_key.service_id) && (instance_id ==
    entry->cfg.s_key.instance_id)` -/
def someip_service_entry_t.hasKey (entry : someip_service_entry_t L)
    (service_id instance_id : UInt16) : Bool :=
  service_id == entry.cfg.s_key.service_id && instance_id == entry.cfg.s_key.instance_id

/-- An entry has the key of its configuration. -/
theorem hasKey_iff {entry : someip_service_entry_t L} {service_id instance_id : UInt16} :
    entry.hasKey service_id instance_id = true ↔ entry.cfg.s_key = ⟨service_id, instance_id⟩ := by
  obtain ⟨⟨role, ⟨sid, iid⟩, tcp, udp, mul_udp⟩, _⟩ := entry
  rw [someip_service_entry_t.hasKey, Bool.and_eq_true, beq_iff_eq, beq_iff_eq,
    service_key_t.mk.injEq]
  exact and_congr eq_comm eq_comm

/-- The loop finds the service. -/
theorem any_hasKey {list : List (someip_service_entry_t L)} {key : service_key_t} :
    (!list.isEmpty && list.any (·.hasKey key.service_id key.instance_id)) = true ↔ ∃ entry ∈ list,
      entry.cfg.s_key = key := by
  rw [Bool.and_eq_true, List.any_eq_true]
  constructor
  · rintro ⟨-, entry, hentry, heq⟩
    exact ⟨entry, hentry, hasKey_iff.mp heq⟩
  · rintro ⟨entry, hentry, heq⟩
    refine ⟨?_, entry, hentry, hasKey_iff.mpr heq⟩
    rw [Bool.not_eq_true', List.isEmpty_eq_false_iff]
    exact List.ne_nil_of_mem hentry

/-- Where the loop over the services stops: the entries before the iterator, its entry and those
    behind. -/
def findService (service_id instance_id : UInt16) : List (someip_service_entry_t L) →
    Option (List (someip_service_entry_t L) × someip_service_entry_t L × List
      (someip_service_entry_t L))
  | [] => none
  | entry :: rest =>
      if entry.hasKey service_id instance_id then some ([], entry, rest)
      else (findService service_id instance_id rest).map fun found => (entry :: found.1, found.2)

end Entry

/-- The members of the class. -/
structure serviceDatabase (L : Type → Type) where
  /-- whether `mServiceListMutex` is locked -/
  locked : Bool
  mServiceList : List (someip_service_entry_t L)

namespace serviceDatabase

variable {L : Type → Type} [StdList L] (fresh : (α : Type) → L α) (db : serviceDatabase L)

/-- `mServiceListMutex.lock()`, which waits for ever when it is locked already -/
def lock : Run (serviceDatabase L) :=
  if db.locked then .error .diverged else .ok { db with locked := true }

/-- `mServiceListMutex.unlock()` -/
def unlock : serviceDatabase L := { db with locked := false }

/-- The entry that `memset` and `memcpy` leave. -/
def newEntry (service : someip_service_cfg_t) : someip_service_entry_t L :=
  { cfg := service, mMethodList := fresh _, mEventList := fresh _, mFieldList := fresh _,
    is_available := 0,
    on_available_handler := 0, args := 0 }

/-- `addEntry(service)`: looked for, allocated, and put behind the others. -/
def addEntry (service : someip_service_cfg_t) (mem : Memory) : Run (Ending × serviceDatabase L) :=
  do
  let db ← db.lock
  if !db.mServiceList.isEmpty && db.mServiceList.any
    (·.hasKey service.s_key.service_id service.s_key.instance_id) then
    .ok (.returns .STATUS_EXIST, db.unlock)
  else if !mem.malloc then
    .ok (.returns .STATUS_ERR_MALLOC, db.unlock)
  else if !mem.node then
    -- `push_back` throws: nothing is linked, and nothing is unlocked
    .ok (.bad_alloc, db)
  else
    let db := { db with mServiceList := db.mServiceList ++ [newEntry fresh service] }
    .ok (.returns .STATUS_SUCCESS, db.unlock)

/-- The loop over a list of an entry, for an id. -/
def itemExists (k : Kind) (id : UInt16) (list : L k.Item) : Run Bool :=
  if !StdList.empty list then StdList.any (fun temp => k.id temp == id) list else .ok false

/-- `addMethod`, `addEvent` and `addField`, by the list they go to. -/
def addItem (k : Kind) (service_id instance_id : UInt16) (item : k.Item) (mem : Memory) :
    Run (Ending × serviceDatabase L) := do
  let db ← db.lock
  if db.mServiceList.isEmpty then
    .ok (.returns .STATUS_FAILED, db.unlock)
  else
    match findService service_id instance_id db.mServiceList with
    | none => .ok (.returns .STATUS_FAILED, db.unlock)
    | some (pre, find_service, post) => do
        let exist ← itemExists k (k.id item) (find_service.items k)
        if exist then
          .ok (.returns .STATUS_EXIST, db.unlock)
        else if !mem.malloc then
          .ok (.returns .STATUS_ERR_MALLOC, db.unlock)
        else if !mem.node then
          -- as in `addEntry`
          .ok (.bad_alloc, db)
        else do
          let list ← StdList.push_back (find_service.items k) item
          let db := { db with mServiceList := pre ++ find_service.setItems k list :: post }
          .ok (.returns .STATUS_SUCCESS, db.unlock)

/-- `addMethod(service_id, instance_id, method)`. -/
def addMethod (service_id instance_id : UInt16) (method : someip_method_t) (mem : Memory) :
    Run (Ending × serviceDatabase L) :=
  db.addItem .method service_id instance_id method mem

/-- `addEvent(service_id, instance_id, event)`. -/
def addEvent (service_id instance_id : UInt16) (event : someip_event_t) (mem : Memory) :
    Run (Ending × serviceDatabase L) :=
  db.addItem .event service_id instance_id event mem

/-- `addField(service_id, instance_id, field)`. -/
def addField (service_id instance_id : UInt16) (field : someip_field_t) (mem : Memory) :
    Run (Ending × serviceDatabase L) :=
  db.addItem .field service_id instance_id field mem

end serviceDatabase

section Unlocked

variable {L : Type → Type} (fresh : (α : Type) → L α) {db : serviceDatabase L}
  (h : db.locked = false)

include h

/-- The mutex is taken where it is free. -/
theorem lock_eq : db.lock = .ok { db with locked := true } := by
  rw [serviceDatabase.lock, h]
  rfl

/-- The lock is released again. -/
theorem unlock_eq (list : List (someip_service_entry_t L)) :
    (⟨true, list⟩ : serviceDatabase L).unlock = { db with mServiceList := list } := by
  rw [serviceDatabase.unlock, h]

/-- A service that is there already. -/
theorem addEntry_exist {service : someip_service_cfg_t}
    (hhas : ∃ entry ∈ db.mServiceList, entry.cfg.s_key = service.s_key)
    (mem : Memory) : db.addEntry fresh service mem = .ok (.returns .STATUS_EXIST, db) := by
  simp only [serviceDatabase.addEntry, lock_eq h, Run.ok_bind]
  rw [if_pos (any_hasKey.mpr hhas), unlock_eq h]

/-- A new service, by the memory there is. -/
theorem addEntry_new {service : someip_service_cfg_t}
    (hnew : ¬ ∃ entry ∈ db.mServiceList, entry.cfg.s_key = service.s_key)
    (mem : Memory) : db.addEntry fresh service mem = .ok (
      if mem.malloc = false then (.returns .STATUS_ERR_MALLOC, db)
      else if mem.node = false then (.bad_alloc, { db with locked := true })
      else (.returns .STATUS_SUCCESS,
        { db with
          mServiceList := db.mServiceList ++ [serviceDatabase.newEntry fresh service] })) := by
  simp only [serviceDatabase.addEntry, lock_eq h, Run.ok_bind]
  rw [if_neg fun hfound => hnew (any_hasKey.mp hfound), unlock_eq h, unlock_eq h]
  obtain ⟨malloc, node⟩ := mem
  cases malloc <;> cases node <;> rfl

end Unlocked

/-- A call, with the memory it finds. -/
inductive Call where
  | addEntry (service : someip_service_cfg_t) (mem : Memory)
  | addItem (k : Kind) (service_id instance_id : UInt16) (item : k.Item) (mem : Memory)

/-- The memory a call finds. -/
def Call.mem : Call → Memory
  | .addEntry _ mem => mem
  | .addItem _ _ _ _ mem => mem

section Sys

variable {L : Type → Type} [StdList L] (fresh : (α : Type) → L α)

/-- A call on the database. -/
def serviceDatabase.exec (db : serviceDatabase L) : Call → Run (Ending × serviceDatabase L)
  | .addEntry service mem => db.addEntry fresh service mem
  | .addItem .method service_id instance_id item mem => db.addMethod service_id instance_id item mem
  | .addItem .event service_id instance_id item mem => db.addEvent service_id instance_id item mem
  | .addItem .field service_id instance_id item mem => db.addField service_id instance_id item mem

/-- The three calls for items are one: they differ in the list they go to. -/
theorem exec_addItem (db : serviceDatabase L) (k : Kind) (service_id instance_id : UInt16)
    (item : k.Item) (mem : Memory) :
    db.exec fresh (.addItem k service_id instance_id item mem) =
      db.addItem k service_id instance_id item mem := by
  cases k <;> rfl

/-- A new database, and calls with how they end. -/
def databaseSys : TransSys (serviceDatabase L) (Call × Ending) where
  init := ⟨false, []⟩
  step db e :=
    match db.exec fresh e.1 with
    | .ok (ending, db') => if ending = e.2 then some db' else none
    | .error _ => none

/-- A step is a call and how it ends. -/
theorem databaseSys_step {db db' : serviceDatabase L} {call : Call} {ending : Ending} :
    (databaseSys fresh).step db (call, ending) = some db' ↔ db.exec fresh call = .ok
      (ending, db') := by
  rw [databaseSys]
  dsimp only
  -- a call that faults is no step
  cases db.exec fresh call with
  | error fault =>
    constructor
    · intro h
      cases h
    · intro h
      cases h
  | ok r =>
    obtain ⟨ending', db''⟩ := r
    constructor
    · intro h
      obtain ⟨rfl, hdb⟩ := Option.ite_none_right_eq_some.mp
        (show (if ending' = ending then some db'' else none) = some db' from h)
      rw [Option.some.inj hdb]
    · intro h
      obtain ⟨rfl, rfl⟩ := Prod.mk.inj (Except.ok.inj h)
      exact if_pos rfl

/-- What is left to do for a service that was found. -/
theorem addItem_found {db : serviceDatabase L} (h : db.locked = false)
    {service_id instance_id : UInt16} {k : Kind} {item : k.Item} {mem : Memory}
    {pre post : List (someip_service_entry_t L)} {entry : someip_service_entry_t L}
    (hfound : findService service_id instance_id db.mServiceList = some (pre, entry, post)) :
    db.addItem k service_id instance_id item mem = (do
      let exist ← serviceDatabase.itemExists k (k.id item) (entry.items k)
      if exist then .ok (.returns .STATUS_EXIST, db)
      else if !mem.malloc then .ok (.returns .STATUS_ERR_MALLOC, db)
      else if !mem.node then .ok (.bad_alloc, { db with locked := true })
      else do
        let list ← StdList.push_back (entry.items k) item
        .ok (.returns .STATUS_SUCCESS,
          { db with mServiceList := pre ++ entry.setItems k list :: post })) := by
  have hne : ¬ db.mServiceList.isEmpty = true := by
    intro hnil
    rw [List.isEmpty_iff.mp hnil] at hfound
    cases hfound
  simp only [serviceDatabase.addItem, lock_eq h, Run.ok_bind, if_neg hne, hfound, unlock_eq h]

/-- A service that is not stored takes no item. -/
theorem addItem_absent {db : serviceDatabase L} (h : db.locked = false)
    {service_id instance_id : UInt16} {k : Kind} {item : k.Item} {mem : Memory}
    (hnone : findService service_id instance_id db.mServiceList = none) :
    db.addItem k service_id instance_id item mem = .ok (.returns .STATUS_FAILED, db) := by
  simp only [serviceDatabase.addItem, lock_eq h, Run.ok_bind, hnone, unlock_eq h, ite_self]

/-- A call on a locked database waits for ever. -/
theorem exec_locked {db : serviceDatabase L} (h : db.locked = true) (call : Call) :
    db.exec fresh call = .error .diverged := by
  have hlock : db.lock = .error .diverged := if_pos h
  cases call with
  | addEntry service mem =>
    show (db.lock >>= _) = _
    rw [hlock]
    rfl
  | addItem k service_id instance_id item mem =>
    rw [exec_addItem]
    show (db.lock >>= _) = _
    rw [hlock]
    rfl

/-- A call that ends found the database unlocked, since on a locked one it waits for ever. -/
theorem exec_was_unlocked {db db' : serviceDatabase L} {call : Call} {ending : Ending}
    (h : db.exec fresh call = .ok (ending, db')) : db.locked = false := by
  cases hl : db.locked with
  | false => rfl
  | true => cases (exec_locked fresh hl call).symm.trans h

/-- **Every path that returns releases the lock**, and the exception leaves it. -/
theorem exec_locked_iff {db db' : serviceDatabase L} {call : Call} {ending : Ending}
    (h : db.exec fresh call = .ok (ending, db')) : db'.locked = true ↔ ending = .bad_alloc := by
  have hl := exec_was_unlocked fresh h
  -- every path is walked, with the lock it leaves
  cases call with
  | addEntry service mem =>
    by_cases hhas : ∃ entry ∈ db.mServiceList, entry.cfg.s_key = service.s_key
    · cases (addEntry_exist fresh hl hhas mem).symm.trans h
      simp [hl]
    · have hrun := (addEntry_new fresh hl hhas mem).symm.trans h
      split at hrun
      · cases hrun
        simp [hl]
      · split at hrun <;> cases hrun <;> simp [hl]
  | addItem k service_id instance_id item mem =>
    rw [exec_addItem] at h
    cases hfound : findService service_id instance_id db.mServiceList with
    | none =>
      cases (addItem_absent hl hfound).symm.trans h
      simp [hl]
    | some found =>
      obtain ⟨pre, entry, post⟩ := found
      rw [addItem_found hl hfound] at h
      obtain ⟨exist, -, h⟩ := Run.bind_ok.mp h
      split at h
      · cases h
        simp [hl]
      · split at h
        · cases h
          simp [hl]
        · split at h
          · cases h
            simp
          · -- the item is stored, and the lock released behind it
            obtain ⟨list, -, h⟩ := Run.bind_ok.mp h
            cases h
            simp [hl]

end Sys

/-! ## Lists that are constructed

  The instance below is the documented behaviour of a `std::list` that was constructed.  A call is
  judged by `HasService` and `HasItem` alone, which do not depend on the order of the lists. -/

instance : StdList List where
  empty list := list.isEmpty
  any p list := .ok (list.any p)
  push_back list a := .ok (list ++ [a])

/-- A constructed list is empty. -/
def constructed (α : Type) : List α := []

section Constructed

variable {db : serviceDatabase List} {service_id instance_id : UInt16}

/-- A search that finds nothing passed over every entry. -/
theorem findService_none {L : Type → Type} : ∀ {l : List (someip_service_entry_t L)},
    findService service_id instance_id l = none → ∀ entry ∈ l,
      entry.cfg.s_key ≠ ⟨service_id, instance_id⟩ := by
  intro l
  induction l with
  | nil =>
    intro _ entry hentry
    cases hentry
  | cons first rest ih =>
    intro h entry hentry
    rw [findService] at h
    split at h
    · cases h
    · next hkey =>
      rcases List.mem_cons.mp hentry with rfl | hmem
      · exact fun heq => hkey (hasKey_iff.mpr heq)
      · exact ih (Option.map_eq_none_iff.mp h) entry hmem

/-- A search that finds divides the list at the first entry of that key. -/
theorem findService_some {L : Type → Type} :
    ∀ {l pre post : List (someip_service_entry_t L)} {entry : someip_service_entry_t L},
    findService service_id instance_id l = some (pre, entry, post) →
    l = pre ++ entry :: post ∧ entry.cfg.s_key = ⟨service_id, instance_id⟩ := by
  intro l
  induction l with
  | nil =>
    intro pre post entry h
    cases h
  | cons first rest ih =>
    intro pre post entry h
    rw [findService] at h
    split at h
    · next hkey =>
      cases h
      exact ⟨rfl, hasKey_iff.mp hkey⟩
    · obtain ⟨⟨pre', entry', post'⟩, hfound, heq⟩ := Option.map_eq_some_iff.mp h
      cases heq
      obtain ⟨rfl, hentry⟩ := ih hfound
      exact ⟨rfl, hentry⟩

/-- Whether a service is there. -/
def HasService (db : serviceDatabase List) (key : service_key_t) : Prop :=
  ∃ entry ∈ db.mServiceList, entry.cfg.s_key = key

/-- Whether a service has a method, an event or a field of this id. -/
def HasItem (db : serviceDatabase List) (k : Kind) (key : service_key_t) (id : UInt16) : Prop :=
  ∃ entry ∈ db.mServiceList, entry.cfg.s_key = key ∧ id ∈ (entry.items k).map k.id

/-- The call asks for something new, and so comes to its allocations. -/
def Call.IsNew (db : serviceDatabase List) : Call → Prop
  | .addEntry service _ => ¬ HasService db service.s_key
  | .addItem k service_id instance_id item _ =>
      HasService db ⟨service_id, instance_id⟩ ∧ ¬ HasItem db k ⟨service_id, instance_id⟩ (k.id item)

/-- If it comes to the node of a list, there is memory for it. -/
def Call.Provided (db : serviceDatabase List) (call : Call) : Prop :=
  call.IsNew db → call.mem.malloc = true → call.mem.node = true

/-- When a call has to return a status; `STATUS_ERR_MALLOC` when either allocation fails. -/
def Call.Verdict (db : serviceDatabase List) : Call → Status → Prop
  | .addEntry service mem, .STATUS_SUCCESS => ¬ HasService db service.s_key ∧ mem.enough = true
  | .addEntry service _, .STATUS_EXIST => HasService db service.s_key
  | .addEntry service mem, .STATUS_ERR_MALLOC => ¬ HasService db service.s_key ∧ mem.enough = false
  | .addEntry _ _, .STATUS_FAILED => False
  | .addItem k service_id instance_id item mem, .STATUS_SUCCESS =>
      HasService db ⟨service_id, instance_id⟩ ∧ ¬ HasItem db k ⟨service_id, instance_id⟩
        (k.id item) ∧ mem.enough = true
  | .addItem k service_id instance_id item _, .STATUS_EXIST => HasItem db k
      ⟨service_id, instance_id⟩ (k.id item)
  | .addItem k service_id instance_id item mem, .STATUS_ERR_MALLOC =>
      HasService db ⟨service_id, instance_id⟩ ∧ ¬ HasItem db k ⟨service_id, instance_id⟩
        (k.id item) ∧ mem.enough = false
  | .addItem _ service_id instance_id _ _, .STATUS_FAILED => ¬ HasService db
      ⟨service_id, instance_id⟩

/-- What a success has to leave: an entry more, or one list of one entry longer. -/
def Call.Stores (db : serviceDatabase List) : Call → serviceDatabase List → Prop
  | .addEntry service _, db' =>
    db' = { db with
      mServiceList := db.mServiceList ++ [serviceDatabase.newEntry constructed service] }
  | .addItem k service_id instance_id item _, db' => ∃ pre entry post, db.mServiceList = pre ++
      entry :: post ∧
      entry.cfg.s_key = ⟨service_id, instance_id⟩ ∧
      db' = { db with mServiceList := pre ++ entry.setItems k (entry.items k ++ [item]) :: post }

/-- Each status exactly when it has to be returned, and nothing changes but for what a success
    stores. -/
structure Meets (db : serviceDatabase List) (call : Call) (status : Status)
    (db' : serviceDatabase List) : Prop where
  /-- the status is the one that has to be returned -/
  verdict : ∀ st, status = st ↔ call.Verdict db st
  /-- what fails changes nothing -/
  unchanged : status ≠ .STATUS_SUCCESS → db' = db
  /-- what succeeds stores what was given -/
  stored : status = .STATUS_SUCCESS → call.Stores db db'

/-- An item belongs to a stored service. -/
theorem HasItem.hasService {k : Kind} {key : service_key_t} {id : UInt16}
    (h : HasItem db k key id) : HasService db key := by
  obtain ⟨entry, hentry, hkey, -⟩ := h
  exact ⟨entry, hentry, hkey⟩

/-- A call has to return one status. -/
theorem verdict_unique {call : Call} {st st' : Status} (h : call.Verdict db st)
    (h' : call.Verdict db st') : st = st' := by
  cases call with
  | addEntry service mem => cases st <;> cases st' <;> simp_all [Call.Verdict]
  | addItem k service_id instance_id item mem =>
    have hitem :
      HasItem db k ⟨service_id, instance_id⟩ (k.id item) →
      HasService db ⟨service_id, instance_id⟩ := HasItem.hasService
    cases st <;> cases st' <;> simp_all [Call.Verdict]

/-- A failure leaves the database. -/
theorem meets_unchanged {call : Call} {status : Status} (hstatus : status ≠ .STATUS_SUCCESS)
    (h : call.Verdict db status) :
    Meets db call status db := by
  constructor
  · exact fun st => ⟨fun heq => heq ▸ h, verdict_unique h⟩
  · exact fun _ => rfl
  · exact fun heq => absurd heq hstatus

/-- A success stores what was given. -/
theorem meets_stored {call : Call} {db' : serviceDatabase List}
    (h : call.Verdict db .STATUS_SUCCESS) (hdb : call.Stores db db') :
    Meets db call .STATUS_SUCCESS db' := by
  constructor
  · exact fun st => ⟨fun heq => heq ▸ h, verdict_unique h⟩
  · exact fun hne => absurd rfl hne
  · exact fun _ => hdb

/-- The store between calls. -/
structure Valid (db : serviceDatabase List) : Prop where
  unlocked : db.locked = false
  keys : (db.mServiceList.map fun entry => entry.cfg.s_key).Nodup
  ids : ∀ entry ∈ db.mServiceList, ∀ k, ((entry.items k).map k.id).Nodup

/-- Which items a service has. -/
theorem Valid.hasItem_iff (h : Valid db) {e : someip_service_entry_t List}
    (he : e ∈ db.mServiceList) {k : Kind} {id : UInt16} :
    HasItem db k e.cfg.s_key id ↔ id ∈ (e.items k).map k.id := by
  constructor
  · rintro ⟨e', he', hkey, hid⟩
    rw [← List.inj_on_of_nodup_map h.keys he' he hkey]
    exact hid
  · intro hid
    exact ⟨e, he, rfl, hid⟩

/-- With memory for the node, if for the entry, `addEntry` returns as it has to; without, it
    throws. -/
theorem addEntry_meets (h : db.locked = false) (service : someip_service_cfg_t) (mem : Memory) :
    ((Call.addEntry service mem).Provided db → ∃ status db', db.addEntry constructed service mem =
      .ok (.returns status, db') ∧
      Meets db (.addEntry service mem) status db') ∧
    (¬ (Call.addEntry service mem).Provided db →
      db.addEntry constructed service mem = .ok (.bad_alloc, { db with locked := true })) := by
  by_cases hhas : HasService db service.s_key
  · refine ⟨fun _ => ⟨_, _, addEntry_exist constructed h hhas mem,
      meets_unchanged (by decide) hhas⟩, fun hp => ?_⟩
    exact absurd (fun hnew => absurd hhas hnew) hp
  · have hrun := addEntry_new constructed h hhas mem
    obtain ⟨malloc, node⟩ := mem
    cases malloc with
    | false =>
      exact ⟨fun _ => ⟨_, _, hrun, meets_unchanged (by decide) ⟨hhas, rfl⟩⟩,
        fun hp => absurd (fun _ hmem => nomatch hmem) hp⟩
    | true =>
      cases node with
      | false => exact ⟨fun hp => absurd (hp hhas rfl) Bool.false_ne_true, fun _ => hrun⟩
      | true =>
        exact ⟨fun _ => ⟨_, _, hrun, meets_stored ⟨hhas, rfl⟩ rfl⟩,
          fun hp => absurd (fun _ _ => rfl) hp⟩

/-- The scan looks for the id. -/
theorem itemExists_eq (k : Kind) (id : UInt16) (list : List k.Item) :
    serviceDatabase.itemExists k id list = .ok (decide (id ∈ list.map k.id)) := by
  cases list with
  | nil => rfl
  | cons first rest =>
    show Except.ok ((first :: rest).any fun temp => k.id temp == id) = _
    congr 1
    rw [Bool.eq_iff_iff, List.any_eq_true, decide_eq_true_eq, List.mem_map]
    simp only [beq_iff_eq]

/-- As `addEntry_meets`, for the items. -/
theorem addItem_meets (h : Valid db) (k : Kind) (item : k.Item) (mem : Memory) :
    ((Call.addItem k service_id instance_id item mem).Provided db → ∃ status db',
      db.addItem k service_id instance_id item mem = .ok (.returns status, db') ∧
      Meets db (.addItem k service_id instance_id item mem) status db') ∧
    (¬ (Call.addItem k service_id instance_id item mem).Provided db →
      db.addItem k service_id instance_id item mem = .ok
        (.bad_alloc, { db with locked := true })) := by
  cases hfound : findService service_id instance_id db.mServiceList with
  -- no such service: `STATUS_FAILED`, with or without memory
  | none =>
    have hno : ¬ HasService db ⟨service_id, instance_id⟩ := by
      rintro ⟨entry, hentry, hkey⟩
      exact findService_none hfound entry hentry hkey
    refine ⟨fun _ => ⟨_, _, addItem_absent h.unlocked hfound, meets_unchanged (by decide) hno⟩,
      fun hp => ?_⟩
    exact absurd (fun hnew => absurd hnew.1 hno) hp
  | some found =>
    obtain ⟨pre, entry, post⟩ := found
    obtain ⟨hlist, hkey⟩ := findService_some hfound
    have hentry : entry ∈ db.mServiceList := hlist ▸ List.mem_append_right pre
      (List.mem_cons_self ..)
    have hhas : HasService db ⟨service_id, instance_id⟩ := ⟨entry, hentry, hkey⟩
    have hitem :
      HasItem db k ⟨service_id, instance_id⟩ (k.id item) ↔ k.id item ∈ (entry.items k).map k.id :=
      hkey ▸ h.hasItem_iff hentry
    rw [addItem_found h.unlocked hfound, itemExists_eq, Run.ok_bind]
    -- a duplicate, or the two allocations one after the other
    by_cases hmem : k.id item ∈ (entry.items k).map k.id
    · rw [if_pos (decide_eq_true hmem)]
      refine ⟨fun _ => ⟨_, _, rfl, meets_unchanged (by decide) (hitem.mpr hmem)⟩, fun hp => ?_⟩
      exact absurd (fun hnew => absurd (hitem.mpr hmem) hnew.2) hp
    · rw [if_neg (by rw [decide_eq_false hmem]; exact Bool.false_ne_true)]
      have hnot : ¬ HasItem db k ⟨service_id, instance_id⟩ (k.id item) :=
        fun hp => hmem (hitem.mp hp)
      obtain ⟨malloc, node⟩ := mem
      cases malloc with
      | false =>
        exact ⟨fun _ => ⟨_, _, rfl, meets_unchanged (by decide) ⟨hhas, hnot, rfl⟩⟩,
          fun hp => absurd (fun _ hmem => nomatch hmem) hp⟩
      | true =>
        cases node with
        -- the node that `push_back` asks for
        | false => exact ⟨fun hp => absurd (hp ⟨hhas, hnot⟩ rfl) Bool.false_ne_true, fun _ => rfl⟩
        | true =>
          exact ⟨fun _ => ⟨_, _, rfl, meets_stored ⟨hhas, hnot, rfl⟩ ⟨_, _, _, hlist, hkey, rfl⟩⟩,
            fun hp => absurd (fun _ _ => rfl) hp⟩

/-- **Every call ends**: as it has to, as long as there is memory for the node. -/
theorem exec_meets (h : Valid db) (call : Call) (hp : call.Provided db) :
    ∃ status db', db.exec constructed call = .ok (.returns status, db') ∧
    Meets db call status db' := by
  cases call with
  | addEntry service mem => exact (addEntry_meets h.unlocked service mem).1 hp
  | addItem k service_id instance_id item mem =>
    rw [exec_addItem]
    exact (addItem_meets h k item mem).1 hp

/-- **Without memory for the node** the call throws, and leaves the lock. -/
theorem exec_bad_alloc (h : Valid db) (call : Call) (hp : ¬ call.Provided db) :
    db.exec constructed call = .ok (.bad_alloc, { db with locked := true }) := by
  cases call with
  | addEntry service mem => exact (addEntry_meets h.unlocked service mem).2 hp
  | addItem k service_id instance_id item mem =>
    rw [exec_addItem]
    exact (addItem_meets h k item mem).2 hp

/-! ## Runs

  The label of a step is a call together with how it ended, so what a run has added can be read off
  its labels. -/

/-- The service that a call has added. -/
def addedEntry : Call × Ending → Option someip_service_cfg_t
  | (.addEntry service _, .returns .STATUS_SUCCESS) => some service
  | _ => none

/-- The method, event or field that a call has added to a service. -/
def addedItem (k : Kind) (key : service_key_t) : Call × Ending → Option k.Item
  | (.addItem k' service_id instance_id item _, .returns .STATUS_SUCCESS) =>
      if h : k' = k then if ⟨service_id, instance_id⟩ = key then some (h ▸ item) else none else none
  | _ => none

/-- A call that failed added no entry. -/
theorem addedEntry_failed {call : Call} {status : Status} (h : status ≠ .STATUS_SUCCESS) :
    addedEntry (call, .returns status) = none := by
  cases call <;> cases status <;> first | rfl | exact absurd rfl h

/-- And no item. -/
theorem addedItem_failed {k : Kind} {key : service_key_t} {call : Call} {status : Status}
    (h : status ≠ .STATUS_SUCCESS) :
    addedItem k key (call, .returns status) = none := by
  cases call <;> cases status <;> first | rfl | exact absurd rfl h

/-- One that succeeded added its item. -/
theorem addedItem_self (k : Kind) (item : k.Item) (mem : Memory) :
    addedItem k ⟨service_id, instance_id⟩ (.addItem k service_id instance_id item mem,
      .returns .STATUS_SUCCESS) = some item := by
  rw [addedItem, dif_pos rfl, if_pos rfl]

/-- And none of another kind or service. -/
theorem addedItem_other {k k' : Kind} {key : service_key_t} {item : k'.Item} {mem : Memory}
    (h : k' ≠ k ∨ ⟨service_id, instance_id⟩ ≠ key) :
    addedItem k key (.addItem k' service_id instance_id item mem, .returns .STATUS_SUCCESS) =
      none := by
  rw [addedItem]
  split
  · next hk =>
    rcases h with hne | hne
    · exact absurd hk hne
    · exact if_neg hne
  · rfl

/-- **Step lemma**: what is stored keeps keys and ids distinct.  A new service has a key that was
    not there and lists without items; a new item has an id that its list did not have, and the
    other lists and services stay. -/
theorem stores_valid (h : Valid db) {call : Call} {db' : serviceDatabase List}
    (hv : call.Verdict db .STATUS_SUCCESS)
    (hs : call.Stores db db') : Valid db' := by
  cases call with
  -- the key is new, and the lists are empty
  | addEntry service mem =>
    obtain rfl : db' = _ := hs
    refine ⟨h.unlocked, ?_, ?_⟩
    · show ((db.mServiceList ++ [_]).map _).Nodup
      rw [List.map_append, List.map_singleton, List.nodup_append_comm, List.singleton_append,
        List.nodup_cons]
      refine ⟨?_, h.keys⟩
      intro hmem
      obtain ⟨entry, hentry, hkey⟩ := List.mem_map.mp hmem
      exact hv.1 ⟨entry, hentry, hkey⟩
    · intro entry hentry k
      rcases List.mem_append.mp hentry with hold | hnew
      · exact h.ids entry hold k
      · rw [List.mem_singleton.mp hnew]
        cases k <;> exact List.nodup_nil
  -- the keys stay, and one list has one id more
  | addItem k service_id instance_id item mem =>
    obtain ⟨pre, entry, post, hlist, hkey, rfl⟩ := hs
    have hentry : entry ∈ db.mServiceList := hlist ▸ List.mem_append_right pre
      (List.mem_cons_self ..)
    refine ⟨h.unlocked, ?_, ?_⟩
    · have hkeys := h.keys
      rw [hlist, List.map_append, List.map_cons] at hkeys
      show ((pre ++ entry.setItems k (entry.items k ++ [item]) :: post).map _).Nodup
      rw [List.map_append, List.map_cons, cfg_setItems]
      exact hkeys
    · intro e he k'
      rcases List.mem_cons.mp (List.perm_middle.mem_iff.mp he) with rfl | hrest
      · by_cases hk : k' = k
        · subst hk
          rw [items_setItems, List.map_append, List.map_singleton, List.nodup_append_comm,
            List.singleton_append, List.nodup_cons]
          refine ⟨?_, h.ids entry hentry k'⟩
          intro hmem
          exact hv.2.1 ⟨entry, hentry, hkey, hmem⟩
        · rw [items_setItems_ne entry hk]
          exact h.ids entry hentry k'
      · have hmem : e ∈ pre ++ entry :: post := List.perm_middle.mem_iff.mpr
          (List.mem_cons_of_mem _ hrest)
        exact h.ids e (hlist ▸ hmem) k'

/-- **A call keeps the database valid and meets its specification.** -/
theorem valid_step (h : Valid db) {call : Call} {status : Status} {db' : serviceDatabase List}
    (hrun : db.exec constructed call = .ok (.returns status, db')) :
    Valid db' ∧ Meets db call status db' := by
  have hp : call.Provided db := by
    by_contra hnot
    cases (exec_bad_alloc h call hnot).symm.trans hrun
  obtain ⟨status', db'', hrun', hmeets⟩ := exec_meets h call hp
  obtain ⟨hending, rfl⟩ := Prod.mk.inj (Except.ok.inj (hrun'.symm.trans hrun))
  obtain rfl := Ending.returns.inj hending
  refine ⟨?_, hmeets⟩
  by_cases hstatus : status' = .STATUS_SUCCESS
  · subst hstatus
    exact stores_valid h ((hmeets.verdict _).mp rfl) (hmeets.stored rfl)
  · rw [hmeets.unchanged hstatus]
    exact h

/-- The empty database is valid. -/
theorem valid_init : Valid ⟨false, []⟩ := by
  constructor
  · rfl
  · exact List.nodup_nil
  · intro entry hentry
    cases hentry

/-- The lists are what the calls have added, in that order. -/
structure InOrder (es : List (Call × Ending)) (db : serviceDatabase List) : Prop where
  services : db.mServiceList.map someip_service_entry_t.cfg = es.filterMap addedEntry
  items : ∀ entry ∈ db.mServiceList, ∀ k, entry.items k = es.filterMap (addedItem k entry.cfg.s_key)
  -- nothing is added to a service that is not there
  absent : ∀ key, ¬ HasService db key → ∀ k, es.filterMap (addedItem k key) = []

/-- A new service is the last, and has no items. -/
theorem addEntry_inOrder {es : List (Call × Ending)} (ho : InOrder es db)
    {service : someip_service_cfg_t} {mem : Memory}
    (hnew : ¬ HasService db service.s_key) :
    InOrder (es ++ [(.addEntry service mem, .returns .STATUS_SUCCESS)])
      { db with
        mServiceList := db.mServiceList ++ [serviceDatabase.newEntry constructed service] } := by
  have hnone :
    ∀ key k, (es ++ [(Call.addEntry service mem, Ending.returns .STATUS_SUCCESS)]).filterMap
    (addedItem k key) =
      es.filterMap (addedItem k key) := by
    intro key k
    rw [List.filterMap_append]
    exact List.append_nil _
  constructor
  · rw [List.filterMap_append, ← ho.services]
    exact List.map_append
  · intro entry hentry k
    rw [hnone]
    rcases List.mem_append.mp hentry with hold | hlast
    · exact ho.items entry hold k
    · obtain rfl := List.mem_singleton.mp hlast
      rw [show (serviceDatabase.newEntry constructed service).cfg.s_key = service.s_key from rfl,
        ho.absent service.s_key hnew k]
      cases k <;> rfl
  · intro key hkey k
    rw [hnone]
    apply ho.absent key
    rintro ⟨entry, hentry, heq⟩
    exact hkey ⟨entry, List.mem_append_left _ hentry, heq⟩

/-- Around an entry stand others, with other keys. -/
theorem others_of_valid (h : Valid db) {pre post : List (someip_service_entry_t List)}
    {entry : someip_service_entry_t List}
    (hlist : db.mServiceList = pre ++ entry :: post) :
    ∀ e ∈ pre ++ post, e ∈ db.mServiceList ∧ entry.cfg.s_key ≠ e.cfg.s_key := by
  have hkeys := h.keys
  rw [hlist, List.map_append, List.map_cons, List.nodup_middle, List.nodup_cons, ← List.map_append]
    at hkeys
  intro e he
  constructor
  · rw [hlist]
    exact List.perm_middle.mem_iff.mpr (List.mem_cons_of_mem _ he)
  · intro heq
    exact hkeys.1 (heq ▸ List.mem_map_of_mem he)

/-- A new item is the last of its list, and the other lists stay.  The entry is divided off the
    others, whose keys are different, so their items are those of other calls. -/
theorem addItem_inOrder {es : List (Call × Ending)} (h : Valid db) (ho : InOrder es db) {k : Kind}
    {item : k.Item} {mem : Memory}
    {pre post : List (someip_service_entry_t List)} {entry : someip_service_entry_t List}
    (hlist : db.mServiceList = pre ++ entry :: post)
    (hkey : entry.cfg.s_key = ⟨service_id, instance_id⟩) :
    InOrder (es ++ [(.addItem k service_id instance_id item mem, .returns .STATUS_SUCCESS)])
      { db with mServiceList := pre ++ entry.setItems k (entry.items k ++ [item]) :: post } := by
  -- for another list or another service the call has added nothing
  have hother : ∀ key k', k ≠ k' ∨ ⟨service_id, instance_id⟩ ≠ key →
      (es ++ [(Call.addItem k service_id instance_id item mem,
        Ending.returns .STATUS_SUCCESS)]).filterMap (addedItem k' key) =
        es.filterMap (addedItem k' key) := by
    intro key k' hne
    rw [List.filterMap_append, List.filterMap_cons, addedItem_other hne]
    exact List.append_nil _
  have hentry : entry ∈ db.mServiceList := hlist ▸ List.mem_append_right pre (List.mem_cons_self ..)
  constructor
  · show (pre ++ entry.setItems k (entry.items k ++ [item]) :: post).map
      someip_service_entry_t.cfg = _
    rw [List.filterMap_append, ← ho.services, hlist, List.map_append, List.map_append,
      List.map_cons, List.map_cons, cfg_setItems]
    exact (List.append_nil _).symm
  · intro e he k'
    rcases List.mem_cons.mp (List.perm_middle.mem_iff.mp he) with rfl | he'
    · rw [cfg_setItems]
      -- the list that was addressed, or another of the same service
      by_cases hk : k' = k
      · subst hk
        rw [items_setItems, List.filterMap_append, ← ho.items entry hentry k', List.filterMap_cons,
          hkey, addedItem_self]
        rfl
      · rw [items_setItems_ne entry hk, hother _ _ (.inl (Ne.symm hk))]
        exact ho.items entry hentry k'
    · -- the other entries have other keys
      obtain ⟨hmem, hne⟩ := others_of_valid h hlist e he'
      rw [hother _ _ (.inr (hkey ▸ hne))]
      exact ho.items e hmem k'
  · -- a service that is not stored is not the one addressed
    intro key hnot k'
    have hne : (⟨service_id, instance_id⟩ : service_key_t) ≠ key := by
      rintro rfl
      exact hnot ⟨_, List.mem_append_right pre (List.mem_cons_self ..),
        (congrArg _ (cfg_setItems entry k _)).trans hkey⟩
    rw [hother _ _ (.inr hne)]
    apply ho.absent key
    rintro ⟨e, he, heq⟩
    rcases List.mem_cons.mp (List.perm_middle.mem_iff.mp (hlist ▸ he)) with rfl | he'
    · exact hne (hkey.symm.trans heq)
    · exact hnot ⟨e, List.perm_middle.mem_iff.mpr (List.mem_cons_of_mem _ he'), heq⟩

/-- **Step lemma**: what is stored comes last, in the list of services or in one list of one
    service. -/
theorem stores_inOrder {es : List (Call × Ending)} (h : Valid db) (ho : InOrder es db) {call : Call}
    {db' : serviceDatabase List}
    (hv : call.Verdict db .STATUS_SUCCESS) (hs : call.Stores db db') :
    InOrder (es ++ [(call, .returns .STATUS_SUCCESS)]) db' := by
  cases call with
  | addEntry service mem =>
    obtain rfl : db' = _ := hs
    exact addEntry_inOrder ho hv.1
  | addItem k service_id instance_id item mem =>
    obtain ⟨pre, entry, post, hlist, hkey, rfl⟩ := hs
    exact addItem_inOrder h ho hlist hkey

/-- Along a run the database is valid and its items are in the order they were added, by induction
    on the calls. -/
theorem valid_of_trace {es : List (Call × Ending)}
    (h : (databaseSys constructed).Trace (fun db e _ => e.1.Provided db) es db) :
    Valid db ∧ InOrder es db := by
  induction h with
  | init =>
    refine ⟨valid_init, rfl, ?_, fun _ _ _ => rfl⟩
    intro entry hentry
    cases hentry
  | @step es db db' e _ hs hp ih =>
    obtain ⟨hvalid, horder⟩ := ih
    obtain ⟨call, ending⟩ := e
    have hrun := (databaseSys_step constructed).mp hs
    obtain ⟨status, db'', hrun', -⟩ := exec_meets hvalid call hp
    obtain ⟨rfl, -⟩ := Prod.mk.inj (Except.ok.inj (hrun'.symm.trans hrun))
    obtain ⟨hvalid', hmeets⟩ := valid_step hvalid hrun
    refine ⟨hvalid', ?_⟩
    by_cases hstatus : status = .STATUS_SUCCESS
    · -- a success adds an entry or an item, and counts as that
      subst hstatus
      exact stores_inOrder hvalid horder ((hmeets.verdict _).mp rfl) (hmeets.stored rfl)
    · -- any other status leaves the store, and counts as no addition
      rw [hmeets.unchanged hstatus]
      constructor
      · rw [List.filterMap_append, List.filterMap_cons, addedEntry_failed hstatus]
        exact horder.services.trans (List.append_nil _).symm
      · intro entry hentry k
        rw [List.filterMap_append, List.filterMap_cons, addedItem_failed hstatus]
        exact (horder.items entry hentry k).trans (List.append_nil _).symm
      · intro key hkey k
        rw [List.filterMap_append, List.filterMap_cons, addedItem_failed hstatus,
          horder.absent key hkey k]
        rfl

/-- A call that returned its status exactly when it had to, changed nothing or the one list, and
    left the lock free. -/
def Atomic (db : serviceDatabase List) (call : Call) (ending : Ending)
    (db' : serviceDatabase List) : Prop :=
  ∃ status, ending = .returns status ∧ Meets db call status db' ∧ db'.locked = false

/-- **The store keeps its invariant and its calls are atomic, as long as every node gets its
    memory**: services and, in each, methods, events and fields are distinct and in order of
    insertion; and a further call ends as it has to if and only if there is memory for the node, if
    it comes to one. -/
theorem database_run {es : List (Call × Ending)}
    (h : (databaseSys constructed).Trace (fun db e _ => e.1.Provided db) es db) :
    (db.mServiceList.map fun entry => entry.cfg.s_key).Nodup ∧
    (∀ entry ∈ db.mServiceList, ∀ k, ((entry.items k).map k.id).Nodup) ∧
    db.mServiceList.map someip_service_entry_t.cfg = es.filterMap addedEntry ∧
    (∀ entry ∈ db.mServiceList, ∀ k, entry.items k = es.filterMap (addedItem k entry.cfg.s_key)) ∧
    ∀ call, ∃ ending db', db.exec constructed call = .ok (ending, db') ∧
      (Atomic db call ending db' ↔ call.Provided db) := by
  obtain ⟨hvalid, horder⟩ := valid_of_trace h
  refine ⟨hvalid.keys, hvalid.ids, horder.services, horder.items, ?_⟩
  intro call
  by_cases hp : call.Provided db
  · obtain ⟨status, db', hrun, hmeets⟩ := exec_meets hvalid call hp
    have hfree : ¬ db'.locked = true := fun hl => nomatch (exec_locked_iff constructed hrun).mp hl
    exact ⟨_, db', hrun, fun _ => hp, fun _ => ⟨status, rfl, hmeets, Bool.eq_false_iff.mpr hfree⟩⟩
  · -- the exception is no status, whatever it leaves
    refine ⟨_, _, exec_bad_alloc hvalid call hp, ?_, fun hc => absurd hc hp⟩
    rintro ⟨status, hending, -⟩
    cases hending

/-- A service, a method of it, the method again, and a second service for which `malloc` has no
    memory. -/
theorem database_run_method :
    ∃ db : serviceDatabase List, (databaseSys constructed).exec ⟨false, []⟩
      [(.addEntry ⟨0, ⟨7, 1⟩, ⟨0, 0⟩, ⟨0, 0⟩, ⟨0, 0⟩⟩ ⟨true, true⟩, .returns .STATUS_SUCCESS),
        (.addItem .method 7 1 (⟨9, 0, 0⟩ : someip_method_t) ⟨true, true⟩, .returns .STATUS_SUCCESS),
        (.addItem .method 7 1 (⟨9, 0, 0⟩ : someip_method_t) ⟨true, true⟩, .returns .STATUS_EXIST),
        (.addEntry ⟨0, ⟨8, 1⟩, ⟨0, 0⟩, ⟨0, 0⟩, ⟨0, 0⟩⟩ ⟨false, true⟩,
          .returns .STATUS_ERR_MALLOC)] = some db ∧
    (db.mServiceList.map fun entry => entry.cfg.s_key).Nodup ∧ db.mServiceList.length = 1 := by
  have h0 : (databaseSys constructed).Trace (fun db e _ => e.1.Provided db) [] _ := .init
  have h1 := h0.step (e := (Call.addEntry ⟨0, ⟨7, 1⟩, ⟨0, 0⟩, ⟨0, 0⟩, ⟨0, 0⟩⟩ ⟨true, true⟩,
    Ending.returns .STATUS_SUCCESS))
    rfl (fun _ _ => rfl)
  have h2 := h1.step (e := (Call.addItem .method 7 1 (⟨9, 0, 0⟩ : someip_method_t) ⟨true, true⟩,
    Ending.returns .STATUS_SUCCESS))
    rfl (fun _ _ => rfl)
  have h3 := h2.step (e := (Call.addItem .method 7 1 (⟨9, 0, 0⟩ : someip_method_t) ⟨true, true⟩,
    Ending.returns .STATUS_EXIST))
    rfl (fun _ _ => rfl)
  have h4 := h3.step (e := (Call.addEntry ⟨0, ⟨8, 1⟩, ⟨0, 0⟩, ⟨0, 0⟩, ⟨0, 0⟩⟩ ⟨false, true⟩,
    Ending.returns .STATUS_ERR_MALLOC))
    rfl (fun _ _ => rfl)
  exact ⟨_, rfl, (database_run h4).1, rfl⟩

/-- **The exception of `push_back`**: a first service for which there is memory, but none for its
    node.  No status is returned, the mutex stays locked, and the next call waits for ever. -/
theorem node_alloc_fails : (databaseSys constructed).Reachable (⟨true, []⟩ : serviceDatabase List) ∧
    (serviceDatabase.mk false []).exec constructed
      (.addEntry ⟨0, ⟨7, 1⟩, ⟨0, 0⟩, ⟨0, 0⟩, ⟨0, 0⟩⟩ ⟨true, false⟩) =
      .ok (.bad_alloc, ⟨true, []⟩) ∧
    ∀ call, (serviceDatabase.mk true []).exec constructed call = .error .diverged := by
  have h0 : (databaseSys constructed).Reachable _ := .init
  have h1 := h0.step (e := (Call.addEntry ⟨0, ⟨7, 1⟩, ⟨0, 0⟩, ⟨0, 0⟩, ⟨0, 0⟩⟩ ⟨true, false⟩,
    Ending.bad_alloc)) rfl trivial
  exact ⟨h1, rfl, exec_locked constructed rfl⟩

end Constructed

end Someip

end StevenProgram
