/-
  One round of the select engine: whether `service` calls the handler for exactly what is ready.

  The loop counts down from what `select` returned, a number of bits, and takes one off for each
  descriptor with a bit.  So it may go on longer than needed, and never stops while a bit is left
  (`dispatch_count`).

  1. **Engines** — `Fits`, which holds whatever calls have been made (`fits_reachable`).
  2. **Headline** (`round_exact`) — a call for each bit that `select` leaves, once, and no other.
-/
import StevenProgram.Net.Polled

namespace StevenProgram

namespace Engine

/-- `mMaxFd` is a descriptor that has a bit in an `fd_set`, or -1. -/
structure Fits (s : mxEngineSelect) : Prop where
  lo : -1 ≤ s.mMaxFd
  hi : s.mMaxFd < FD_SETSIZE

variable {s : mxEngineSelect}

/-- So it is in every engine, after any calls. -/
theorem fits_reachable (h : selectSys.Reachable s) : Fits s := by
  refine TransSys.Runs.invariant (I := Fits) ⟨by decide, by decide⟩ ?_ h
  intro s op s' hfits hs _
  obtain ⟨res, hexec⟩ := selectSys_step.mp hs
  obtain ⟨-, hmax⟩ := exec_cases hs
  obtain ⟨hlo, hhi⟩ := hmax.bounds (exec_bound hexec) hfits.lo hfits.hi
  exact ⟨hlo, hhi⟩

/-- **Dispatch is complete and exact**: of every event of every descriptor one call is made if its
    bit is set, the descriptor is at most `mMaxFd` and it is ready, and none otherwise. -/
theorem round_exact (h : Fits s) (ready : Readiness) : ∃ calls, s.service ready = .ok calls ∧
    ∀ ev (fd : Nat), calls.count ⟨ev, fd⟩ =
      if (fd : Int) ≤ s.mMaxFd ∧ s.set ev fd = true ∧ ready fd ev = true then 1 else 0 := by
  obtain ⟨calls, hrun, hcount⟩ := service_count h.lo h.hi ready
  refine ⟨calls, hrun, ?_⟩
  intro ev fd
  have hmax : fd < (s.mMaxFd + 1).toNat ↔ (fd : Int) ≤ s.mMaxFd := by omega
  have hbit : selected s ready ev fd = true ↔ (fd : Int) ≤ s.mMaxFd ∧ s.set ev fd = true ∧
    ready fd ev = true := by
    rw [selected, mxEngineSelect.select, Bool.and_eq_true, Bool.and_eq_true, decide_eq_true_eq,
      hmax, and_assoc]
  rw [hcount, ← if_congr hbit rfl rfl]
  cases selected s ready ev fd <;> rfl

/-- Descriptor 5 is watched for reading, and is readable. -/
theorem round_exact_readable : ∃ calls,
    mxEngineSelect.service ⟨fun n => n == 5, fun _ => false, fun n => n == 5, 5⟩
      (fun fd ev => fd == 5 && ev == .read) = .ok calls ∧
    calls.count ⟨.read, 5⟩ = 1 ∧ calls.count ⟨.error, 5⟩ = 0 := by
  obtain ⟨calls, hrun, hcount⟩ :=
    round_exact (s := ⟨fun n => n == 5, fun _ => false, fun n => n == 5, 5⟩)
    ⟨by decide, by decide⟩ (fun fd ev => fd == 5 && ev == .read)
  refine ⟨calls, hrun, ?_, ?_⟩
  · exact (hcount .read 5).trans (if_pos (by decide))
  · exact (hcount .error 5).trans (if_neg (by decide))

end Engine

end StevenProgram
