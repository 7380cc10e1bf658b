import AosvFibers.Atomic.Switch
import AosvFibers.Model.Ioctl

/-!
# Failed system calls

A system call that fails leaves the module's state as it was, but for the
failed-activation counter of a switch's target. `ioctl_failure_iff` says for
every reachable state and every system call exactly when this holds.

It does not hold when a conversion or creation hands out an id that reads as an
error: ids are 32 bits of a 64-bit counter, returned as a signed number, and
the ids 2^32 - 1, 2^32 - 14 and 2^32 - 22 come out as -1, -EFAULT and -EINVAL
after everything was done.
-/

namespace AosvFibers

open Lib

variable {E : Env} {cur : Task} {k k' : Kernel} {cmd : BitVec 32} {u : UserAccess}

/-! ## System calls as calls -/

/-- What a command asks for: an error before anything is done, or a call. -/
def decode (E : Env) (cmd : BitVec 32) (u : UserAccess) : Except ℤ Call :=
  let withArguments (f : FiberArguments → Call) : Except ℤ Call :=
    match u.arguments with
    | none => .error eFault
    | some fa => .ok (f fa)
  if isCmd E cmd 0 then .ok .convert
  else if isCmd E cmd 1 then withArguments fun fa =>
    .create fa.stackPointer fa.stackSize fa.startFunctionAddress fa.startFunctionArguments
  else if isCmd E cmd 2 then withArguments fun fa => .switchTo fa.fiberId
  else if isCmd E cmd 3 then .ok .flsAlloc
  else if isCmd E cmd 4 then withArguments fun fa => .flsFree fa.index.toInt
  else if isCmd E cmd 5 then withArguments fun fa => .flsGetValue fa.index.toInt
  else if isCmd E cmd 6 then withArguments fun fa => .flsSetValue fa.index.toInt fa.buffer
  else .error eInval

/-- What the system call returns when the call returned `r`. -/
def Call.ioctlResult (u : UserAccess) (r : ℤ) : Call → ℤ
  | .flsGetValue _ => if u.copyToUser then 0 else eFault
  | _ => r

/-- A system call is an error or one call. -/
theorem fibersIoctl_eq (k : Kernel) : fibersIoctl E cur cmd u k = match decode E cmd u with
    | .error e => some (e, k)
    | .ok c => (c.run E cur k).map fun x => (c.ioctlResult u x.1, x.2) := by
  have hid : ∀ o : Option (ℤ × Kernel), o.map (fun x => (x.1, x.2)) = o := fun o => by simp
  unfold fibersIoctl decode
  simp only
  split_ifs with h0 h1 h2 h3 h4 h5 hcopy hcopy
  · exact (hid _).symm
  · cases u.arguments with
    | none => rfl
    | some fa => exact (hid _).symm
  · cases u.arguments with
    | none => rfl
    | some fa => exact (hid _).symm
  · exact (hid _).symm
  · cases u.arguments with
    | none => rfl
    | some fa => exact (hid _).symm
  · cases u.arguments with
    | none => rfl
    | some fa =>
      simp only [Call.run, Call.ioctlResult, K.bind_apply]
      cases doFlsGetValue E cur fa.index.toInt cur.pid k <;> simp_all
  · cases u.arguments with
    | none => rfl
    | some fa =>
      simp only [Call.run, Call.ioctlResult, K.bind_apply]
      cases doFlsGetValue E cur fa.index.toInt cur.pid k <;> simp_all
  · cases u.arguments with
    | none => rfl
    | some fa => exact (hid _).symm
  · rfl

theorem decode_ne_exit : decode E cmd u ≠ .ok .exit := by
  unfold decode
  cases u.arguments <;> simp only <;> split_ifs <;> simp

/-! ## The property -/

/-- The fiber a switch to `id` is aimed at: the caller is converted and its
    process has such a fiber. -/
def Kernel.switchTarget (E : Env) (k : Kernel) (cur : Task) (id : PidT) : Option Ptr :=
  (k.processOf E cur.tgid).join.bind fun ep => (k.process ep).bind fun p =>
    (k.threadOf E p cur.pid).join.bind fun _ => (k.fiberOf E p id).join

/-- The result says that the operation failed; 0 does if the operation is
    `FlsFree`. -/
def Failed (op : Except ℤ Call) (res : ℤ) : Prop :=
  res = -1 ∨ res = eFault ∨ res = eInval ∨ ((∃ i, op = .ok (.flsFree i)) ∧ res = 0)

/-- The state a failed operation may leave behind. -/
def Kernel.afterFailure (E : Env) (k : Kernel) (cur : Task) : Except ℤ Call → Kernel
  | .ok (.switchTo id) => (k.switchTarget E cur id).elim k k.bumped
  | _ => k

/-- The system call returns, and if it failed nothing has changed but for the
    failed-activation counter of a switch's target. -/
def FailureKeepsState (E : Env) (k : Kernel) (cur : Task) (cmd : BitVec 32) (u : UserAccess) :
    Prop :=
  ∃ res k', fibersIoctl E cur cmd u k = some (res, k') ∧
    (Failed (decode E cmd u) res → k' = k.afterFailure E cur (decode E cmd u))

/-- The next id of the process reads as an error. -/
def Process.errorId (p : Process) : Prop :=
  p.nextId.toInt = -1 ∨ p.nextId.toInt = eFault ∨ p.nextId.toInt = eInval

/-- The system call converts a thread or creates a fiber in a process whose next
    id reads as an error. -/
def TakesErrorId (E : Env) (k : Kernel) (cur : Task) (cmd : BitVec 32) (u : UserAccess) : Prop :=
  ∃ ep p, k.processOf E cur.tgid = some (some ep) ∧ k.process ep = some p ∧ p.errorId ∧
    ((decode E cmd u = .ok .convert ∧ k.threadOf E p cur.pid = some none) ∨
      ∃ sp sz fn arg tp, decode E cmd u = .ok (.create sp sz fn arg) ∧
        k.threadOf E p cur.pid = some (some tp))

/-! ## Exactly when a failure keeps the state -/

theorem NotConverted.switchTarget_eq {id : PidT} (h : NotConverted E k cur) :
    k.switchTarget E cur id = none := by
  rcases h with h | ⟨ep, p, h1, h2, h3⟩
  · simp [Kernel.switchTarget, h]
  · simp [Kernel.switchTarget, h1, h2, h3]

theorem Running.switchTarget_eq {ep tp f : Ptr} {p : Process} {t : Thread} {r : Fiber} {id : PidT}
    (h : Running E k cur ep p tp t f r) : k.switchTarget E cur id = (k.fiberOf E p id).join := by
  simp [Kernel.switchTarget, h.process, h.process_eq, h.thread]

/-- An FLS operation that fails leaves the fiber as it is. -/
theorem flsEffect_of_failed {c : Call} {r : Fiber} (hc : c.isFls)
    (h : Failed (.ok c) (c.ioctlResult u (flsEffect c r).1)) : (flsEffect c r).2 = r := by
  cases c with
  | flsAlloc =>
    simp only [Call.ioctlResult, flsEffect] at h ⊢
    split_ifs at h ⊢ with hi
    · simp [Failed, eFault, eInval] at h
    · rfl
  | flsFree index =>
    simp only [Call.ioctlResult, flsEffect] at h ⊢
    cases hi : flsIndex? index with
    | none => rfl
    | some i =>
      by_cases hb : r.flsBitmap i = false
      · simp [hb]
      · simp [hi, hb, Failed, eFault, eInval] at h
  | flsGetValue index =>
    simp only [flsEffect]
    cases flsIndex? index with
    | none => rfl
    | some i => by_cases hb : r.flsBitmap i = false <;> simp [hb]
  | flsSetValue index value =>
    simp only [Call.ioctlResult, flsEffect] at h ⊢
    cases hi : flsIndex? index with
    | none => rfl
    | some i => by_cases hb : r.flsBitmap i = false <;> simp [hi, hb, Failed, eFault, eInval] at h
  | _ => simp [Call.isFls] at hc

theorem failed_nextId {p : Process} {c : Call} (hc : ∀ i, c ≠ .flsFree i) :
    Failed (.ok c) p.nextId.toInt ↔ p.errorId := by
  have hno : ¬ ∃ i, Except.ok (ε := ℤ) c = .ok (.flsFree i) := by
    rintro ⟨i, hi⟩
    exact hc i (by simpa using hi)
  simp only [Failed, Process.errorId, hno, false_and, or_false]

/-- A call that makes a fiber gives out an address. -/
theorem converted_ne {ep : Ptr} {p : Process} : k.converted E cur ep p ≠ k := fun h => by
  have := congrFun (congrArg Kernel.brk h) cur.tgid
  simp [Kernel.converted] at this

theorem created_ne {ep : Ptr} {p : Process} {sp sz fn arg : Word} :
    k.created E cur ep p sp sz fn arg ≠ k := fun h => by
  have := congrFun (congrArg Kernel.brk h) cur.tgid
  simp [Kernel.created, Kernel.withFiber] at this

/-- Calls that make no fiber take no id. -/
theorem not_takes {c : Call} (hdec : decode E cmd u = .ok c) (hconvert : c ≠ .convert)
    (hcreate : ∀ sp sz fn arg, c ≠ .create sp sz fn arg) : ¬ TakesErrorId E k cur cmd u := by
  rintro ⟨ep, p, -, -, -, ⟨hd, -⟩ | ⟨sp, sz, fn, arg, tp, hd, -⟩⟩
  · exact hconvert (by simpa [hdec] using hd)
  · exact hcreate sp sz fn arg (by simpa [hdec] using hd)

/-- A failed system call keeps the state of a reachable state iff it does not
    take an id that reads as an error. -/
theorem ioctl_failure_iff (h : Reachable E k) :
    FailureKeepsState E k cur cmd u ↔ ¬ TakesErrorId E k cur cmd u := by
  have hshape := h.inv.toShape
  cases hdec : decode E cmd u with
  | error e =>
    refine iff_of_true ⟨e, k, by rw [fibersIoctl_eq, hdec], fun _ => by simp [hdec, Kernel.afterFailure]⟩ ?_
    rintro ⟨ep, p, -, -, -, ⟨hd, -⟩ | ⟨sp, sz, fn, arg, tp, hd, -⟩⟩ <;> simp [hdec] at hd
  | ok c =>
    obtain ⟨r, k', hrun, hout⟩ := hshape.outcome (.call cur c)
    have hkeeps : FailureKeepsState E k cur cmd u ↔
        (Failed (.ok c) (c.ioctlResult u r) → k' = k.afterFailure E cur (.ok c)) := by
      have hioctl : fibersIoctl E cur cmd u k = some (c.ioctlResult u r, k') := by
        rw [fibersIoctl_eq, hdec]
        simp [show c.run E cur k = some (r, k') from hrun]
      simp only [FailureKeepsState, hioctl, hdec]
      simp
    rw [hkeeps]
    cases hout with
    | refused hn hc =>
      refine iff_of_true (fun _ => ?_) ?_
      · cases c <;> simp [Kernel.afterFailure, hn.switchTarget_eq]
      · rintro ⟨ep, p, h1, h2, -, ⟨hd, -⟩ | ⟨sp, sz, fn, arg, tp, hd, h3⟩⟩
        · exact hc (by simpa [hdec] using hd)
        · rcases hn with hn | ⟨ep', p', h1', h2', h3'⟩
          · simp [h1] at hn
          · obtain rfl : ep = ep' := by simpa [h1] using h1'
            obtain rfl : p = p' := by simpa [h2] using h2'
            simp [h3] at h3'
    | @again _ ep tp f p t r hr =>
      refine iff_of_true (fun _ => rfl) ?_
      rintro ⟨ep', p', h1, h2, -, ⟨-, h3⟩ | ⟨sp, sz, fn, arg, tp, hd, -⟩⟩
      · obtain rfl : ep = ep' := by simpa [hr.process] using h1
        obtain rfl : p = p' := by simpa [hr.process_eq] using h2
        simp [hr.thread] at h3
      · simp [hdec] at hd
    | convertedFirst hn =>
      refine iff_of_true (fun hf => by simp [Failed, Call.ioctlResult, eFault, eInval] at hf) ?_
      rintro ⟨ep', p', h1, -⟩
      simp [hn] at h1
    | @converted _ ep p hep hp ht =>
      have htakes : TakesErrorId E k cur cmd u ↔ p.errorId := by
        constructor
        · rintro ⟨ep', p', h1, h2, h3, -⟩
          obtain rfl : ep = ep' := by simpa [hep] using h1
          obtain rfl : p = p' := by simpa [hp] using h2
          exact h3
        · exact fun he => ⟨ep, p, hep, hp, he, .inl ⟨hdec, ht⟩⟩
      have hfailed : Failed (.ok .convert) p.nextId.toInt ↔ p.errorId := failed_nextId (by simp)
      rw [htakes, ← hfailed]
      exact ⟨fun hk he => converted_ne (hk he), fun hn he => absurd he hn⟩
    | @created _ ep tp f p t r sp sz fn arg hr =>
      have htakes : TakesErrorId E k cur cmd u ↔ p.errorId := by
        constructor
        · rintro ⟨ep', p', h1, h2, h3, -⟩
          obtain rfl : ep = ep' := by simpa [hr.process] using h1
          obtain rfl : p = p' := by simpa [hr.process_eq] using h2
          exact h3
        · exact fun he =>
            ⟨ep, p, hr.process, hr.process_eq, he, .inr ⟨sp, sz, fn, arg, tp, hdec, hr.thread⟩⟩
      have hfailed : Failed (.ok (.create sp sz fn arg)) p.nextId.toInt ↔ p.errorId :=
        failed_nextId (by simp)
      rw [htakes, ← hfailed]
      exact ⟨fun hk he => created_ne (hk he), fun hn he => absurd he hn⟩
    | switchMissing hr hid =>
      refine iff_of_true (fun _ => ?_) (not_takes hdec (by simp) (by simp))
      simp [Kernel.afterFailure, hr.switchTarget_eq, hid]
    | switchBusy hr hid hg hl =>
      refine iff_of_true (fun _ => ?_) (not_takes hdec (by simp) (by simp))
      simp [Kernel.afterFailure, hr.switchTarget_eq, hid]
    | switched =>
      exact iff_of_true (fun hf => by simp [Failed, Call.ioctlResult, eFault, eInval] at hf)
        (not_takes hdec (by simp) (by simp))
    | @fls _ ep tp f p t r c hr hc =>
      refine iff_of_true (fun hf => ?_) (not_takes hdec ?_ ?_)
      · rw [flsEffect_of_failed hc hf, ← hr.fiber_eq, Function.update_eq_self]
        cases c <;> simp_all [Call.isFls, Kernel.afterFailure]
      · rintro rfl; simp [Call.isFls] at hc
      · rintro _ _ _ _ rfl; simp [Call.isFls] at hc
    | detached | lastExit => exact absurd hdec decode_ne_exit

/-- The first fiber of a process is switched to by a thread nobody converted. -/
theorem ioctl_failure_iff_boot :
    FailureKeepsState (.linux 240) (Kernel.boot fun _ => .zero) ⟨7, 7⟩ 61442
      ⟨true, some ⟨0, 0, 0, 0, 1, 0, 0⟩, true⟩ :=
  (ioctl_failure_iff (.boot _)).mpr (not_takes (c := .switchTo 1) (by decide) (by simp) (by simp))

/-- The fiber number 2^32 - 1 of a process is created, and its id is -1. -/
theorem ioctl_failure_changes_state : ∃ k, Reachable (.linux 240) k ∧
    ¬ FailureKeepsState (.linux 240) k ⟨7, 7⟩ 61441
      ⟨true, some ⟨4096, 64, 17, 5, 0, 0, 0⟩, true⟩ := by
  obtain ⟨k, ep, p, tp, t, f, hreach, hcaller, -, hlast, -, -⟩ :=
    exists_created (.linux 240) ⟨7, 7⟩ (fun _ => .zero) (2 ^ 32 - 3)
  have hid : p.nextId.toInt = -1 := by rw [Process.nextId, hlast]; decide
  have hrun := doCreateFiber_eq hcaller 4096 64 17 5
  refine ⟨k, hreach, ?_⟩
  rintro ⟨res, k', hioctl, hkeeps⟩
  have hdec : decode (.linux 240) 61441 ⟨true, some ⟨4096, 64, 17, 5, 0, 0, 0⟩, true⟩ =
      .ok (.create 4096 64 17 5) := by decide
  rw [fibersIoctl_eq, hdec] at hioctl
  simp only [Call.run, hrun, Option.map_some, Option.some.injEq, Prod.mk.injEq] at hioctl
  obtain ⟨rfl, rfl⟩ := hioctl
  rw [hdec] at hkeeps
  exact created_ne (hkeeps (.inl hid))

end AosvFibers
