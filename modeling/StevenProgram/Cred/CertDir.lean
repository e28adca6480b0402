/-
  `credMgr::loadCertDir` (`credMgr.cpp`): every regular file of a directory is handed to
  `loadCertByType`.

  One buffer of 128 bytes holds the path and, behind it, the name of each entry in turn.  A name
  that does not fit is not skipped, as a special file is: the function gives up, with what it has
  loaded so far.  So what a directory with such a name loads depends on where `readdir` lists it.

  1. **Code** — `openName`, `readLoop` and `loadCertDir`.
  2. **The buffer** — `snprintf` into it (`snprintf_at`), the path with its slash (`openName_eq`).
  3. **The entries** (`readLoop_eq`, `loadCertDir_eq`) — what is handed over, in the order of the
     listing.
  4. **Headline** (`cert_dir_iff`) — for every path and every listing.

  Names are C strings, `opendir` and what `stat` says are parameters, and every `mxLogFmt` is left
  out.
-/
import StevenProgram.Cred.SubjectString

namespace StevenProgram

open Lexparser (SLASH)
open SubjectString (snprintf cString cString_eq_iff)

namespace CertDir

/-! ## Code

  The sizes are written as in the source: `sizeof(fullName)-1` for the path, `sizeof(fullName)-len`
  for a name behind it. -/

/-- A string without its NUL. -/
structure CName where
  bytes : List UInt8
  noNul : 0 ∉ bytes
  deriving DecidableEq

/-- The directories that open, and the paths of regular files. -/
structure FileSystem where
  opendir : List UInt8 → Bool
  isReg : List UInt8 → Bool

/-- What `loadCertDir` returns. -/
inductive DirStatus where
  | STATUS_SUCCESS
  | STATUS_FAILED
  deriving DecidableEq, Repr

/-- `sizeof(fullName)` -/
abbrev FULLNAME_SIZE : Nat := 128

/-- `sizeof(fullName)-len`, a `size_t`. -/
def remaining (len : Nat) : Nat := (FULLNAME_SIZE + 2 ^ 64 - len) % 2 ^ 64

/-- What `snprintf` returns for a text of this length; it has no `s32_t` for one of 2^31 bytes. -/
def returned (n : Nat) : Int := if n < 2 ^ 31 then n else -1

/-- `len < 0 || len >= size`. -/
def tooLong (n size : Nat) : Bool := decide (returned n < 0) || decide ((size : Int) ≤ returned n)

def DOT : List UInt8 := ascii "."
def DOTDOT : List UInt8 := ascii ".."

/-- `path`, which is `./` when it is empty. -/
def dirPath (path : CName) : List UInt8 := if path.bytes = [] then ascii "./" else path.bytes

/-- `fullName` and `len` in front of `opendir`, or none for STATUS_FAILED. -/
def openName (path : List UInt8) : Run (Option (Mem FULLNAME_SIZE × Nat)) := do
  let (fullName, len) ← snprintf (Mem.fill FULLNAME_SIZE 0) 0 (FULLNAME_SIZE - 1) path
  if tooLong len (FULLNAME_SIZE - 1) then .ok none
  else do
    let last ← readAt fullName.bytes (len - 1)
    -- append a '/' if not already done
    if last ≠ SLASH then do
      let fullName ← fullName.memcpy len [SLASH]
      let fullName ← fullName.memcpy (len + 1) [0]
      .ok (some (fullName, len + 1))
    else .ok (some (fullName, len))

/-- `while ((entry = readdir(dir)) != NULL)`: the status, and the files handed to
    `loadCertByType`. -/
def readLoop (fs : FileSystem) (len : Nat) :
    List CName → Mem FULLNAME_SIZE → List (List UInt8) → Run (DirStatus × List (List UInt8))
  | [], _, loaded => .ok (.STATUS_SUCCESS, loaded)
  | d_name :: entries, fullName, loaded =>
      if d_name.bytes = DOT ∨ d_name.bytes = DOTDOT then readLoop fs len entries fullName loaded
      else do
        let (fullName, len2) ← snprintf fullName len (remaining len) d_name.bytes
        if tooLong len2 (remaining (len + 1)) then .ok (.STATUS_FAILED, loaded)
        else
          let file := cString fullName.bytes
          -- skip special file
          if fs.isReg file = false then readLoop fs len entries fullName loaded
          else readLoop fs len entries fullName (loaded ++ [file])

/-- `loadCertDir(path)`, for what `readdir` lists: the status, and the files that were handed over.
    -/
def loadCertDir (fs : FileSystem) (path : CName) (entries : List CName) :
    Run (DirStatus × List (List UInt8)) := do
  match ← openName (dirPath path) with
  | none => .ok (.STATUS_FAILED, [])
  | some (fullName, len) =>
      if fs.opendir (dirPath path) = false then .ok (.STATUS_FAILED, [])
      else readLoop fs len entries fullName []

/-! ## The buffer

  Only the front of the buffer, up to the slash, is needed again; what is behind it is overwritten
  by every name. -/

/-- The path with its slash. -/
def front (path : CName) : List UInt8 :=
  if (dirPath path).getLast? = some SLASH then dirPath path else dirPath path ++ [SLASH]

/-- The path, a slash if it has none, and the name. -/
def fullPath (path name : CName) : List UInt8 := front path ++ name.bytes

/-- The path of a directory is not empty. -/
theorem dirPath_ne_nil (path : CName) : dirPath path ≠ [] := by
  rw [dirPath]
  split
  · decide
  · assumption

/-- Nor does it hold a NUL. -/
theorem front_noNul (path : CName) : 0 ∉ front path := by
  have hdir : 0 ∉ dirPath path := by
    rw [dirPath]
    split
    · decide
    · exact path.noNul
  rw [front]
  split
  · exact hdir
  · rw [List.mem_append]
    intro h
    rcases h with h | h
    · exact hdir h
    · exact absurd h (by decide)

/-- `snprintf` says so when the text and its NUL do not fit. -/
theorem tooLong_iff {n size : Nat} (hsize : size ≤ 2 ^ 31) : tooLong n size = true ↔ size ≤ n := by
  rw [tooLong, returned, Bool.or_eq_true, decide_eq_true_eq, decide_eq_true_eq]
  split <;> omega

/-- What is left of the buffer. -/
theorem remaining_eq {len : Nat} (h : len ≤ 128) : remaining len = 128 - len := by
  show (128 + 2 ^ 64 - len) % 2 ^ 64 = 128 - len
  omega

/-- **A text is put behind what is there**, as much of it as fits, and a NUL. -/
theorem snprintf_at (dst : Mem FULLNAME_SIZE) {off size : Nat} (text : List UInt8) (hpos : 0 < size)
    (hfits : off + size ≤ 128) :
    ∃ m rest, snprintf dst off size text = .ok (m, text.length) ∧
      m.bytes = dst.bytes.take off ++ (text.take (size - 1) ++ 0 :: rest) := by
  have hlen : (text.take (size - 1) ++ [0]).length ≤ size := by
    rw [List.length_append, List.length_take, List.length_singleton]
    omega
  obtain ⟨m, hm, hbytes⟩ := Mem.memcpy_ok dst off (text.take (size - 1) ++ [0])
    (show off + (text.take (size - 1) ++ [0]).length ≤ 128 by omega)
  refine ⟨m, dst.bytes.drop (off + (text.take (size - 1) ++ [0]).length), ?_, ?_⟩
  · rw [snprintf, if_neg (Nat.ne_of_gt hpos), hm]
    rfl
  · rw [hbytes, List.append_assoc, List.append_assoc]
    rfl

/-- A text is read back up to its NUL. -/
theorem cString_front {text rest : List UInt8} (h : 0 ∉ text) :
    cString (text ++ 0 :: rest) = text := by
  have hall : ∀ b ∈ text, (b != 0) = true := by
    intro b hb
    rw [bne_iff_ne]
    rintro rfl
    exact h hb
  rw [cString, List.takeWhile_append_of_pos hall, List.takeWhile_cons_of_neg (by decide),
    List.append_nil]

/-- The slash and the NUL behind the path. -/
theorem slash_appended {m : Mem FULLNAME_SIZE} {dir : List UInt8}
    (hm : m.bytes.take dir.length = dir) (hfits : dir.length ≤ 126) :
    ∃ m1 m2, m.memcpy dir.length [SLASH] = .ok m1 ∧ m1.memcpy (dir.length + 1) [0] = .ok m2 ∧
      m2.bytes.take (dir ++ [SLASH]).length = dir ++ [SLASH] := by
  obtain ⟨m1, hm1, -⟩ := Mem.memcpy_ok m dir.length [SLASH] (show dir.length + 1 ≤ 128 by omega)
  obtain ⟨m2, hm2, hbytes⟩ := Mem.memcpy_ok m1 (dir.length + 1) [0]
    (show dir.length + 1 + 1 ≤ 128 by omega)
  refine ⟨m1, m2, hm1, hm2, ?_⟩
  have hfront : m1.bytes.take (dir.length + 1) = dir ++ [SLASH] := by
    have htake := Mem.take_memcpy hm1
    rw [hm] at htake
    exact htake
  rw [hbytes, hfront, List.append_assoc, List.take_left]

/-- The path as `opendir` and the entries find it: refused, or in the buffer with its slash and a
    NUL behind it. -/
theorem openName_eq (path : CName) :
    (126 < (dirPath path).length ∧ openName (dirPath path) = .ok none) ∨
    (dirPath path).length ≤ 126 ∧ ∃ m : Mem FULLNAME_SIZE,
      openName (dirPath path) = .ok (some (m, (front path).length)) ∧
      m.bytes.take (front path).length = front path ∧ (front path).length ≤ 127 := by
  obtain ⟨m, rest, hprint, hbytes⟩ : ∃ m rest,
      snprintf (Mem.fill FULLNAME_SIZE 0) 0 (FULLNAME_SIZE - 1) (dirPath path) = .ok
        (m, (dirPath path).length) ∧
        m.bytes = (Mem.fill FULLNAME_SIZE 0).bytes.take 0 ++
          ((dirPath path).take (127 - 1) ++ 0 :: rest) :=
    snprintf_at (Mem.fill FULLNAME_SIZE 0) (dirPath path) (by decide) (by decide)
  have hlong :
    tooLong (dirPath path).length (FULLNAME_SIZE - 1) = true ↔ 127 ≤ (dirPath path).length :=
    tooLong_iff (by decide)
  rw [openName, hprint, Run.ok_bind]
  simp only []
  by_cases hfits : 127 ≤ (dirPath path).length
  · left
    exact ⟨hfits, if_pos (hlong.mpr hfits)⟩
  · right
    rw [if_neg (fun h => hfits (hlong.mp h))]
    refine ⟨by omega, ?_⟩
    have htake : (dirPath path).take (127 - 1) = dirPath path := List.take_of_length_le (by omega)
    rw [List.take_zero, List.nil_append, htake] at hbytes
    have hpath : m.bytes.take (dirPath path).length = dirPath path := by rw [hbytes, List.take_left]
    obtain ⟨last, hlast⟩ : ∃ last, (dirPath path).getLast? = some last :=
      ⟨_, List.getLast?_eq_some_getLast (dirPath_ne_nil path)⟩
    obtain ⟨init, hinit⟩ := List.getLast?_eq_some_iff.mp hlast
    have hread : readAt m.bytes ((dirPath path).length - 1) = .ok last := by
      rw [hbytes, hinit, readAt, List.length_append, List.length_singleton, Nat.add_sub_cancel,
        List.append_assoc,
        List.getElem?_append_right (Nat.le_refl _), Nat.sub_self]
      rfl
    rw [hread, Run.ok_bind, front, hlast]
    -- the slash is there, or is put behind the path
    by_cases hslash : last = SLASH
    · rw [if_neg (not_not_intro hslash), if_pos (congrArg some hslash)]
      exact ⟨m, rfl, hpath, by omega⟩
    · rw [if_pos hslash, if_neg (fun h => hslash (Option.some.inj h))]
      obtain ⟨m1, m2, hm1, hm2, hfront⟩ := slash_appended hpath (by omega)
      have hlen : (dirPath path ++ [SLASH]).length = (dirPath path).length + 1 := List.length_append
      rw [hm1, Run.ok_bind, hm2, Run.ok_bind]
      exact ⟨m2, by rw [hlen], hfront, by omega⟩

/-! ## The entries

  `handedOver` is the loop as a function of lists, with `takeWhile` for the early return. -/

/-- An entry that does not end the loop: its path fits, or it is the directory or the one above. -/
def passes (pre : List UInt8) (name : CName) : Bool :=
  decide (name.bytes = DOT ∨ name.bytes = DOTDOT) || decide ((pre ++ name.bytes).length ≤ 126)

/-- An entry that is handed over, as long as its path fits. -/
def wanted (fs : FileSystem) (pre : List UInt8) (name : CName) : Bool :=
  !decide (name.bytes = DOT ∨ name.bytes = DOTDOT) && fs.isReg (pre ++ name.bytes)

/-- What is handed over: the wanted entries in front of the first that does not pass. -/
def handedOver (fs : FileSystem) (pre : List UInt8) (entries : List CName) : List (List UInt8) :=
  ((entries.takeWhile (passes pre)).filter (wanted fs pre)).map fun name => pre ++ name.bytes

variable {fs : FileSystem} {pre : List UInt8} {name : CName} {entries : List CName}

/-- An entry that does not fit ends the walk. -/
theorem handedOver_stop (h : passes pre name = false) : handedOver fs pre (name :: entries) =
    [] := by
  rw [handedOver, List.takeWhile_cons_of_neg (by rw [h]; decide)]
  rfl

/-- One that fits is handed over if it is wanted, and the walk goes on. -/
theorem handedOver_pass (h : passes pre name = true) : handedOver fs pre (name :: entries) =
    (if wanted fs pre name then [pre ++ name.bytes] else []) ++ handedOver fs pre entries := by
  rw [handedOver, handedOver, List.takeWhile_cons_of_pos h]
  by_cases hwant : wanted fs pre name = true
  · rw [List.filter_cons_of_pos hwant, if_pos hwant, List.map_cons, List.singleton_append]
  · rw [List.filter_cons_of_neg hwant, if_neg hwant, List.nil_append]

/-- An entry fits when its path has 126 bytes at most. -/
theorem passes_iff (hdots : ¬ (name.bytes = DOT ∨ name.bytes = DOTDOT)) :
    passes pre name = true ↔ pre.length + name.bytes.length ≤ 126 := by
  rw [passes, decide_eq_false hdots, Bool.false_or, decide_eq_true_eq, List.length_append]

/-- A regular file is wanted. -/
theorem wanted_eq (hdots : ¬ (name.bytes = DOT ∨ name.bytes = DOTDOT)) :
    wanted fs pre name = fs.isReg (pre ++ name.bytes) := by
  rw [wanted, decide_eq_false hdots, Bool.not_false, Bool.true_and]

/-- An entry's name, printed behind the path. -/
theorem name_printed {m : Mem FULLNAME_SIZE} (name : CName) (hpre : 0 ∉ pre)
    (hlen : pre.length ≤ 127)
    (hm : m.bytes.take pre.length = pre) :
    ∃ m', snprintf m pre.length (remaining pre.length) name.bytes = .ok (m', name.bytes.length) ∧
      m'.bytes.take pre.length = pre ∧
      (pre.length + name.bytes.length ≤ 126 → cString m'.bytes = pre ++ name.bytes) := by
  have hroom : pre.length + (128 - pre.length) ≤ 128 := by omega
  obtain ⟨m', rest, hprint, hbytes⟩ := snprintf_at m name.bytes
    (show 0 < 128 - pre.length by omega) hroom
  rw [hm] at hbytes
  rw [remaining_eq (by omega)]
  refine ⟨m', hprint, by rw [hbytes, List.take_left], ?_⟩
  intro hfits
  have htake : name.bytes.take (128 - pre.length - 1) = name.bytes := List.take_of_length_le
    (by omega)
  rw [hbytes, htake, ← List.append_assoc]
  apply cString_front
  rw [List.mem_append]
  exact not_or.mpr ⟨hpre, name.noNul⟩

/-- **The loop over the entries**, behind the path in the buffer.  By induction on the entries; each
    turn finds the path where the last one left it. -/
theorem readLoop_eq (fs : FileSystem) (hpre : 0 ∉ pre) (hlen : pre.length ≤ 127) :
    ∀ (entries : List CName) (m : Mem FULLNAME_SIZE) (loaded : List (List UInt8)),
      m.bytes.take pre.length = pre →
      readLoop fs pre.length entries m loaded =
        .ok (if entries.all (passes pre) then .STATUS_SUCCESS else .STATUS_FAILED,
          loaded ++ handedOver fs pre entries) := by
  intro entries
  induction entries with
  | nil =>
    intro m loaded _
    rw [handedOver, List.takeWhile_nil, List.filter_nil, List.map_nil, List.append_nil]
    rfl
  | cons name entries ih =>
    intro m loaded hm
    rw [readLoop]
    by_cases hdots : name.bytes = DOT ∨ name.bytes = DOTDOT
    · -- not an entry of the directory
      have hpass : passes pre name = true := by rw [passes, decide_eq_true hdots, Bool.true_or]
      have hwant : wanted fs pre name = false := by
        rw [wanted, decide_eq_true hdots, Bool.not_true, Bool.false_and]
      rw [if_pos hdots, ih m loaded hm, handedOver_pass hpass, List.all_cons, hpass,
        Bool.true_and, hwant]
      rfl
    · obtain ⟨m', hprint, hm', hfile⟩ := name_printed name hpre hlen hm
      have hlong : tooLong name.bytes.length (remaining (pre.length + 1)) = true ↔
        127 ≤ pre.length + name.bytes.length := by
        rw [remaining_eq (by omega), tooLong_iff (by omega)]
        omega
      have hiff : passes pre name = true ↔ pre.length + name.bytes.length ≤ 126 := passes_iff hdots
      rw [if_neg hdots, hprint, Run.ok_bind]
      simp only []
      cases hpass : passes pre name with
      | false =>
        -- the function gives up here
        have hstop : ¬ pre.length + name.bytes.length ≤ 126 := by
          rw [← hiff, hpass]
          decide
        rw [if_pos (hlong.mpr (by omega)), handedOver_stop hpass, List.all_cons, hpass,
          Bool.false_and, List.append_nil]
        rfl
      | true =>
        have hfits := hiff.mp hpass
        rw [if_neg (fun h => absurd (hlong.mp h) (by omega)), hfile hfits, ih m' _ hm', ih m' _ hm',
          handedOver_pass hpass,
          List.all_cons, hpass, Bool.true_and, wanted_eq hdots]
        cases fs.isReg (pre ++ name.bytes) with
        | false => rfl
        | true => rw [if_neg (by decide), if_pos rfl, List.append_assoc]

/-- The path fits, and the directory opens. -/
def Opens (fs : FileSystem) (path : CName) : Prop :=
  (dirPath path).length ≤ 126 ∧ fs.opendir (dirPath path) = true

instance (fs : FileSystem) (path : CName) : Decidable (Opens fs path) :=
  inferInstanceAs (Decidable ((dirPath path).length ≤ 126 ∧ fs.opendir (dirPath path) = true))

/-- **What a listing loads**, without a fault. -/
theorem loadCertDir_eq (fs : FileSystem) (path : CName) (entries : List CName) : ∃ ret,
    loadCertDir fs path entries = .ok (ret, if Opens fs path then handedOver fs (front path) entries
      else []) := by
  rw [loadCertDir]
  rcases openName_eq path with ⟨hlong, hopen⟩ | ⟨hfits, m, hopen, hm, hlen⟩
  · rw [hopen, Run.ok_bind, if_neg (fun h : Opens fs path => absurd h.1 (Nat.not_le.mpr hlong))]
    exact ⟨_, rfl⟩
  · rw [hopen, Run.ok_bind]
    simp only []
    by_cases hdir : fs.opendir (dirPath path) = false
    · rw [if_pos hdir, if_neg (fun h : Opens fs path => by rw [h.2] at hdir; cases hdir)]
      exact ⟨_, rfl⟩
    · have hopens : Opens fs path := ⟨hfits, by simpa using hdir⟩
      rw [if_neg hdir, if_pos hopens, readLoop_eq fs (front_noNul path) hlen entries m [] hm]
      exact ⟨_, rfl⟩

/-! ## Headline

  Two things are asked of a directory: that what it loads are its files, and that the order in which
  they are listed does not matter.  The first always holds. -/

variable {path : CName}

/-- The run has a result; each file handed over is an entry's whole path. -/
def Exact (fs : FileSystem) (path : CName) (entries : List CName) : Prop :=
  ∃ ret loaded, loadCertDir fs path entries = .ok (ret, loaded) ∧
    ∀ file ∈ loaded, ∃ name ∈ entries, file = fullPath path name ∧ file.length ≤ 126

/-- Every order of the entries hands over the same files. -/
def OrderFree (fs : FileSystem) (path : CName) (entries : List CName) : Prop :=
  ∀ (listing : List CName) (ret ret' : DirStatus) (loaded loaded' : List (List UInt8)),
    entries.Perm listing →
    loadCertDir fs path entries = .ok (ret, loaded) → loadCertDir fs path listing = .ok
      (ret', loaded') →
    ∀ file, file ∈ loaded ↔ file ∈ loaded'

/-- The name does not fit behind the path, and is no `.` or `..`. -/
def TooLong (path name : CName) : Prop := passes (front path) name = false

/-- A regular file whose path fits. -/
def Loadable (fs : FileSystem) (path name : CName) : Prop :=
  passes (front path) name = true ∧ wanted fs (front path) name = true

/-- What is handed over stands in front of the first entry that does not fit. -/
theorem mem_handedOver {file : List UInt8} : file ∈ handedOver fs pre entries ↔
    ∃ name ∈ entries.takeWhile (passes pre), wanted fs pre name = true ∧
    pre ++ name.bytes = file := by
  rw [handedOver, List.mem_map]
  simp only [List.mem_filter, and_assoc]

/-- **No listing is a fault, and what is handed over are whole paths.** -/
theorem exact_loads (fs : FileSystem) (path : CName) (entries : List CName) :
    Exact fs path entries := by
  obtain ⟨ret, hrun⟩ := loadCertDir_eq fs path entries
  refine ⟨ret, _, hrun, ?_⟩
  intro file hfile
  split at hfile
  · obtain ⟨name, hname, hwant, rfl⟩ := mem_handedOver.mp hfile
    refine ⟨name, List.takeWhile_subset _ hname, rfl, ?_⟩
    have hpass : passes (front path) name = true := List.mem_takeWhile_imp hname
    rw [passes, Bool.or_eq_true, decide_eq_true_eq, decide_eq_true_eq] at hpass
    rw [wanted, Bool.and_eq_true, Bool.not_eq_true', decide_eq_false_iff_not] at hwant
    exact hpass.resolve_left hwant.1
  · exact absurd hfile List.not_mem_nil

/-- Every entry passes: every wanted one is handed over. -/
theorem mem_of_all {file : List UInt8} (hall : ∀ name ∈ entries, passes pre name = true) :
    file ∈ handedOver fs pre entries ↔ ∃ name ∈ entries, wanted fs pre name = true ∧
    pre ++ name.bytes = file := by
  rw [mem_handedOver, List.takeWhile_eq_self_iff.mpr hall]

/-- Nothing that passes is wanted: nothing is handed over. -/
theorem not_mem_of_none {file : List UInt8}
    (hnone : ∀ name ∈ entries, ¬ (passes pre name = true ∧ wanted fs pre name = true)) :
    file ∉ handedOver fs pre entries := by
  intro hfile
  obtain ⟨name, hname, hwant, -⟩ := mem_handedOver.mp hfile
  exact hnone name (List.takeWhile_subset _ hname) ⟨List.mem_takeWhile_imp hname, hwant⟩

/-- A name that does not fit, listed first, and a file that loads, listed first: the two orders hand
    over different files. -/
theorem not_orderFree (hopens : Opens fs path) {long file : CName} (hlong : long ∈ entries)
    (htoo : TooLong path long)
    (hfile : file ∈ entries) (hload : Loadable fs path file) : ¬ OrderFree fs path entries := by
  intro hfree
  -- the same files as in the listing as it is, either way
  have hsame : ∀ listing : List CName, entries.Perm listing → ∀ f,
      f ∈ handedOver fs (front path) entries ↔ f ∈ handedOver fs (front path) listing := by
    intro listing hperm
    obtain ⟨ret, hrun⟩ := loadCertDir_eq fs path entries
    obtain ⟨ret', hrun'⟩ := loadCertDir_eq fs path listing
    rw [if_pos hopens] at hrun hrun'
    exact hfree listing ret ret' _ _ hperm hrun hrun'
  have hnothing : handedOver fs (front path) (long :: entries.erase long) = [] :=
    handedOver_stop htoo
  have hsome : fullPath path file ∈ handedOver fs (front path) (file :: entries.erase file) := by
    rw [handedOver_pass hload.1, if_pos hload.2]
    exact List.mem_cons_self ..
  have hfirst := (hsame _ (List.perm_cons_erase hfile) _).mpr hsome
  have hlast := (hsame _ (List.perm_cons_erase hlong) _).mp hfirst
  rw [hnothing] at hlast
  exact absurd hlast List.not_mem_nil

/-- **Every file that is handed over is an entry's whole path**, and nothing is written outside the
    buffer.  **The order of the listing does not matter exactly if** nothing is read at all, or
    every name fits, or no file loads. -/
theorem cert_dir_iff (fs : FileSystem) (path : CName) (entries : List CName) :
    Exact fs path entries ∧
    (OrderFree fs path entries ↔
      ¬ Opens fs path ∨ (∀ name ∈ entries, ¬ TooLong path name) ∨ ∀ name ∈ entries,
        ¬ Loadable fs path name) := by
  refine ⟨exact_loads fs path entries, ?_, ?_⟩
  · -- both kinds of names in one directory can be listed in either order
    intro hfree
    by_cases hopens : Opens fs path
    · right
      by_cases hlong : ∃ long ∈ entries, TooLong path long
      · right
        obtain ⟨long, hmem, htoo⟩ := hlong
        intro file hfile hload
        exact not_orderFree hopens hmem htoo hfile hload hfree
      · left
        intro name hname htoo
        exact hlong ⟨name, hname, htoo⟩
    · exact .inl hopens
  · intro hcond listing ret ret' loaded loaded' hperm hrun hrun' file
    obtain ⟨st, hst⟩ := loadCertDir_eq fs path entries
    obtain ⟨st', hst'⟩ := loadCertDir_eq fs path listing
    obtain ⟨-, rfl⟩ := Prod.mk.inj (Except.ok.inj (hrun.symm.trans hst))
    obtain ⟨-, rfl⟩ := Prod.mk.inj (Except.ok.inj (hrun'.symm.trans hst'))
    by_cases hopens : Opens fs path
    · rw [if_pos hopens, if_pos hopens]
      rcases hcond with hclosed | hall | hnone
      · exact absurd hopens hclosed
      · have hpass : ∀ name ∈ entries, passes (front path) name = true := by
          intro name hname
          exact Bool.not_eq_false _ ▸ hall name hname
        have hpass' : ∀ name ∈ listing, passes (front path) name = true := by
          intro name hname
          exact hpass name (hperm.mem_iff.mpr hname)
        rw [mem_of_all hpass, mem_of_all hpass']
        simp only [hperm.mem_iff]
      · have hnone' : ∀ name ∈ listing, ¬ Loadable fs path name := by
          intro name hname
          exact hnone name (hperm.mem_iff.mpr hname)
        exact iff_of_false (not_mem_of_none hnone) (not_mem_of_none hnone')
    · rw [if_neg hopens, if_neg hopens]

/-- A name of 120 bytes. -/
def longName : CName := ⟨List.replicate 120 97, by decide⟩

/-- **The early return**: `certs/x509` holds a regular file `a` and a name of 120 bytes.  Listed
    first, the name keeps `a` from being loaded. -/
theorem cert_dir_order : ¬ ∀ (fs : FileSystem) (path : CName) (entries : List CName),
    OrderFree fs path entries := by
  intro h
  have hopens : Opens ⟨fun _ => true, fun _ => true⟩ ⟨ascii "certs/x509", by decide⟩ := by decide
  have htoo : TooLong ⟨ascii "certs/x509", by decide⟩ longName := by
    have hfront : (front ⟨ascii "certs/x509", by decide⟩).length = 11 := by decide
    have hname : longName.bytes.length = 120 := List.length_replicate
    rw [TooLong, passes, Bool.or_eq_false_iff, decide_eq_false_iff_not, decide_eq_false_iff_not,
      List.length_append, hfront,
      hname]
    exact ⟨by decide, by decide⟩
  have hmem : longName ∈ [longName, ⟨ascii "a", by decide⟩] := List.mem_cons_self ..
  exact not_orderFree hopens hmem htoo (List.mem_cons_of_mem _ (List.mem_cons_self ..))
    ⟨by decide, by decide⟩ (h _ _ _)

end CertDir

end StevenProgram
