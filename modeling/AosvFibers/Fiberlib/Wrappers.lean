import AosvFibers.Atomic.Context
import AosvFibers.Atomic.Fls
import AosvFibers.Atomic.Locks
import AosvFibers.Fiberlib.Init

/-!
# The functions of the library

Each function of `fiberlib.c` is one `ioctl` on the device. On its way back the
result of `fibers_ioctl` is a `long`, which the C library turns into an `int`: -1
for an error, and otherwise its low 32 bits. The functions make a `pid_t`, a `long`
or a `bool` of that.

What is decided outside the library and the module during one such function is
`Outside`. `Call.Effected` says what it means that an operation took effect, by the
states before and after it, and `LibraryCall.Reports` that the function's result
tells so.

Result: `wrapper_reports_iff`. `FlsFree` makes `true` of -1, and ids from -4095 to
-1 look like errors to the C library.
-/

namespace AosvFibers

open Lib

/-! ## The way through the C library -/

/-- An error number. -/
structure Errno where
  val : ℕ
  pos : 0 < val
  le : val ≤ 4095

/-- `EBADF` -/
def eBadf : Errno := ⟨9, by decide, by decide⟩

/-- The C library's `ioctl` on the result of the system call. -/
def libcIoctl (res : ℤ) : ℤ :=
  if -4095 ≤ res ∧ res < 0 then -1 else (BitVec.ofInt 32 res).toInt

/-- What is decided outside: whether `posix_memalign` has memory, whether the kernel
    refuses the system call before the module is asked, and what the module's
    accesses to the caller's memory do. -/
structure Outside where
  memalign : Bool
  refused : Option Errno
  accessOk : Bool
  copyFromUser : Bool
  copyToUser : Bool

/-- `fibers_ioctl` with what it writes to the caller's memory, an address and the
    value there (module/ioctl.c:95-99). -/
def fibersIoctlOut (E : Env) (cur : Task) (cmd : BitVec 32) (u : UserAccess) :
    K (ℤ × Option (Word × Word)) :=
  match decode E cmd u, u.arguments with
  | .ok (.flsGetValue index), some fa => do
    let ret ← doFlsGetValue E cur index cur.pid
    if !u.copyToUser then return (eFault, none)
    return (0, some (fa.buffer, ret))
  | _, _ => do return (← fibersIoctl E cur cmd u, none)

namespace LibraryCall

variable (E : Env) (lib : Fiberlib) (cur : Task) (o : Outside) (c : LibraryCall)

/-- The accesses to the `struct fiber_arguments` of the call. -/
def access : UserAccess :=
  ⟨o.accessOk, if o.copyFromUser then c.arguments else none, o.copyToUser⟩

/-- `ioctl(fd, ioctl_numbers[..], ..)`, with what the kernel writes. -/
def ioctl : K (ℤ × Option (Word × Word)) :=
  match o.refused with
  | some e => return (libcIoctl (-e.val), none)
  | none => do
    let r ← fibersIoctlOut E cur (lib.command c) (c.access o)
    return (libcIoctl r.1, r.2)

/-- The local variable of `FlsGetValue` at address `a`, which is 0 unless the kernel
    writes it (fiberlib/fiberlib.c:101-110). -/
def localAfter (a : Word) : Option (Word × Word) → ℤ
  | some (addr, v) => if addr = a then v.toInt else 0
  | none => 0

/-- The function (fiberlib/fiberlib.c:45-110) with its result as a number, 0 for the
    one that returns none. -/
def run : K ℤ := do
  match c with
  | ConvertThreadToFiber | SwitchToFiber _ | FlsAlloc => return (← c.ioctl E lib cur o).1
  | CreateFiber .. =>
    if !o.memalign then return -1
    return (← c.ioctl E lib cur o).1
  | FlsFree _ => return if (← c.ioctl E lib cur o).1 ≠ 0 then 1 else 0
  | FlsSetValue .. =>
    let _ ← c.ioctl E lib cur o
    return 0
  | FlsGetValue _ a => return localAfter a (← c.ioctl E lib cur o).2

end LibraryCall

/-! ## Operations that take effect -/

/-- The call of `cur` took effect between `k` and `k'`, and `v` is the id of the fiber
    it made, the index it allocated, 0 for a switch and 1 for an index given back. -/
def Call.Effected (E : Env) (k : Kernel) (cur : Task) (k' : Kernel) : Call → ℤ → Prop
  | .convert, v => k.running E cur = none ∧
      ∃ f r, k'.running E cur = some f ∧ k'.fiber f = some r ∧ v = r.fiberId.toInt
  | .create .., v => ∃ f r, k.fiber f = none ∧ k'.fiber f = some r ∧ v = r.fiberId.toInt
  | .switchTo id, v => ∃ g, k'.running E cur = some g ∧ k'.fiberKey g = some id ∧
      k.running E cur ≠ some g ∧ v = 0
  | .flsAlloc, v => ∃ f r r' i, k.running E cur = some f ∧ k.fiber f = some r ∧
      k'.fiber f = some r' ∧ r.flsBitmap i = false ∧ r'.flsBitmap i = true ∧ v = i.val
  | .flsFree index, v => ∃ f r r' i, k.running E cur = some f ∧ k.fiber f = some r ∧
      k'.fiber f = some r' ∧ flsIndex? index = some i ∧ r.flsBitmap i = true ∧
      r'.flsBitmap i = false ∧ v = 1
  | _, _ => False

/-- The id the next fiber of `cur`'s process gets, if the call makes one. -/
def Kernel.idTaken (E : Env) (k : Kernel) (cur : Task) (c : Call) : Option PidT :=
  match (k.processOf E cur.tgid).join.bind k.process with
  | none => if c = .convert then some 1 else none
  | some p =>
    match c, (k.threadOf E p cur.pid).join with
    | .convert, none => some p.nextId
    | .create .., some _ => some p.nextId
    | _, _ => none

/-- What the call returned is what it made, or it made nothing and returned what it
    returns to a thread that is not converted. -/
inductive Call.Told (E : Env) (k : Kernel) (cur : Task) (k' : Kernel) (c : Call) (res : ℤ) : Prop
  | made {id : PidT} (heff : ∀ v, c.Effected E k cur k' v ↔ v = res)
      (hid : k.idTaken E cur c = some id) (hres : res = id.toInt) : Told E k cur k' c res
  | done (heff : ∀ v, c.Effected E k cur k' v ↔ v = res) (hid : k.idTaken E cur c = none)
      (hres : 0 ≤ res ∧ res < 4096) : Told E k cur k' c res
  | failed (heff : ∀ v, ¬ c.Effected E k cur k' v) (hid : k.idTaken E cur c = none)
      (hres : res = c.refused) : Told E k cur k' c res

/-- The library function has a result to tell about. -/
def Call.tells : Call → Prop
  | .convert | .create .. | .switchTo _ | .flsAlloc | .flsFree _ => True
  | _ => False

variable {E : Env} {cur : Task} {k k' : Kernel} {c : Call} {res : ℤ}

/-- Nothing took effect in a state that is left alone. -/
theorem not_effected_self (v : ℤ) : ¬ c.Effected E k cur k v := by
  cases c with
  | convert =>
    rintro ⟨hn, f, r, hf, -⟩
    rw [hn] at hf
    cases hf
  | create =>
    rintro ⟨f, r, hn, hf, -⟩
    rw [hn] at hf
    cases hf
  | switchTo id =>
    rintro ⟨g, hg, -, hne, -⟩
    exact hne hg
  | flsAlloc =>
    rintro ⟨f, r, r', i, -, hr, hr', hb, hb', -⟩
    obtain rfl := Option.some.inj (hr.symm.trans hr')
    rw [hb] at hb'
    cases hb'
  | flsFree index =>
    rintro ⟨f, r, r', i, -, hr, hr', -, hb, hb', -⟩
    obtain rfl := Option.some.inj (hr.symm.trans hr')
    rw [hb] at hb'
    cases hb'
  | _ => exact id

/-- No id is taken by a thread that is not converted but for a conversion. -/
theorem NotConverted.idTaken_eq (h : NotConverted E k cur) (hc : c ≠ .convert) :
    k.idTaken E cur c = none := by
  rcases h with h | ⟨ep, p, h1, h2, h3⟩
  · simp [Kernel.idTaken, h, hc]
  · cases c <;> simp [Kernel.idTaken, h1, h2, h3] at hc ⊢

/-- The id taken by a converted thread. -/
theorem Running.idTaken_eq {ep tp f : Ptr} {p : Process} {t : Thread} {r : Fiber}
    (h : Running E k cur ep p tp t f r) (hc : ∀ sp sz fn arg, c ≠ .create sp sz fn arg) :
    k.idTaken E cur c = none := by
  cases c with
  | create sp sz fn arg => exact absurd rfl (hc sp sz fn arg)
  | _ => simp [Kernel.idTaken, h.process, h.process_eq, h.thread]

/-- A conversion whose new fiber is at `f`. -/
theorem told_converted {f : Ptr} {r : Fiber} (id : PidT) (hbefore : k.running E cur = none)
    (hafter : k'.running E cur = some f) (hf : k'.fiber f = some r) (hr : r.fiberId = id)
    (hid : k.idTaken E cur .convert = some id) : Call.Told E k cur k' .convert id.toInt := by
  refine .made ?_ hid rfl
  intro v
  constructor
  · rintro ⟨-, g, r', hg, hr', rfl⟩
    obtain rfl := Option.some.inj (hafter.symm.trans hg)
    obtain rfl := Option.some.inj (hf.symm.trans hr')
    rw [hr]
  · rintro rfl
    exact ⟨hbefore, f, r, hafter, hf, by rw [hr]⟩

section Fls

variable {ep tp f : Ptr} {p : Process} {t : Thread} {r : Fiber}

/-- An FLS operation that leaves the fiber as it is. -/
theorem Running.update_self (h : Running E k cur ep p tp t f r) :
    { k with fiber := Function.update k.fiber f (some r) } = k := by
  rw [← h.fiber_eq, Function.update_eq_self]

theorem told_flsAlloc (h : Running E k cur ep p tp t f r) : Call.Told E k cur
    { k with fiber := Function.update k.fiber f (some (flsEffect .flsAlloc r).2) } .flsAlloc
    (flsEffect .flsAlloc r).1 := by
  have hid : k.idTaken E cur .flsAlloc = none := h.idTaken_eq fun _ _ _ _ => by simp
  obtain ⟨-, -, hclear⟩ := findFirstZeroBit_spec r.flsBitmap
  simp only [flsEffect]
  split_ifs with hlt
  · refine .done ?_ hid ⟨by omega, by simpa using hlt⟩
    intro v
    constructor
    · rintro ⟨g, rg, rg', i, hg, hrg, hrg', hb, hb', rfl⟩
      obtain rfl := Option.some.inj (h.running_eq.symm.trans hg)
      obtain rfl := Option.some.inj (h.fiber_eq.symm.trans hrg)
      obtain rfl : _ = rg' := by simpa using hrg'
      -- no other bit has changed
      by_cases hi : i = ⟨findFirstZeroBit r.flsBitmap, hlt⟩
      · rw [hi]
      · simp [hi, hb] at hb'
    · rintro rfl
      refine ⟨f, r, _, ⟨_, hlt⟩, h.running_eq, h.fiber_eq, Function.update_self _ _ _,
        hclear hlt, ?_, rfl⟩
      simp [hclear hlt]
  · rw [h.update_self]
    exact .failed not_effected_self hid rfl

theorem told_flsFree (h : Running E k cur ep p tp t f r) (index : ℤ) : Call.Told E k cur
    { k with fiber := Function.update k.fiber f (some (flsEffect (.flsFree index) r).2) }
    (.flsFree index) (flsEffect (.flsFree index) r).1 := by
  have hid : k.idTaken E cur (.flsFree index) = none := h.idTaken_eq fun _ _ _ _ => by simp
  simp only [flsEffect]
  cases hi : flsIndex? index with
  | none =>
    rw [h.update_self]
    exact .failed not_effected_self hid rfl
  | some i =>
    simp only
    split_ifs with hb
    · rw [h.update_self]
      exact .failed not_effected_self hid rfl
    · refine .done ?_ hid ⟨Int.one_nonneg, by simp⟩
      intro v
      constructor
      · rintro ⟨_, _, _, _, _, _, _, _, _, _, hv⟩
        exact hv
      · rintro rfl
        exact ⟨f, r, _, i, h.running_eq, h.fiber_eq, Function.update_self _ _ _, hi,
          by simpa using hb, by simpa using hb, rfl⟩

end Fls

theorem Outcome.told (hk : Inv E k) (h : Outcome E k (.call cur c) res k') (hc : c.tells) :
    c.Told E k cur k' res := by
  have hk' := hk.step h
  cases h with
  | refused hn hconv => exact .failed not_effected_self (hn.idTaken_eq hconv) rfl
  | again hr =>
    exact .failed not_effected_self (hr.idTaken_eq fun _ _ _ _ => by simp) rfl
  | convertedFirst hn =>
    refine told_converted 1 (NotConverted.running_eq (.inl hn))
      (hk'.running_iff.mpr ⟨_, _, rfl, Function.update_self _ _ _, rfl, rfl⟩)
      (Function.update_self _ _ _) rfl ?_
    simp [Kernel.idTaken, hn]
  | @converted _ ep p hep hp ht =>
    refine told_converted p.nextId (NotConverted.running_eq (.inr ⟨_, _, hep, hp, ht⟩))
      (hk'.running_iff.mpr ⟨_, _, rfl, Function.update_self _ _ _, rfl, rfl⟩)
      (Function.update_self _ _ _) rfl ?_
    simp [Kernel.idTaken, hep, hp, ht]
  | @created _ ep tp f p t r sp sz fn arg hr =>
    have hnone := hk.fresh_fiber_none (x := k.nextPtr cur.tgid) le_rfl
    have hnew : (k.created E cur ep p sp sz fn arg).fiber (k.nextPtr cur.tgid) = some
        (createdFiber E cur (k.nextPtr cur.tgid) (k.cpu cur) ep sp sz fn arg p.nextId) :=
      Function.update_self _ _ _
    have hid : k.idTaken E cur (.create sp sz fn arg) = some p.nextId := by
      simp [Kernel.idTaken, hr.process, hr.process_eq, hr.thread]
    refine .made ?_ hid rfl
    · intro v
      constructor
      · rintro ⟨g, rg, hg, hg', rfl⟩
        by_cases hgn : g = k.nextPtr cur.tgid
        · subst hgn
          obtain rfl := Option.some.inj (hnew.symm.trans hg')
          rfl
        · rw [Kernel.created, Kernel.withFiber] at hg'
          simp [hgn, hg] at hg'
      · rintro rfl
        exact ⟨k.nextPtr cur.tgid, _, hnone, hnew, rfl⟩
  | switchMissing hr hid =>
    exact .failed not_effected_self (hr.idTaken_eq fun _ _ _ _ => by simp) rfl
  | switchBusy hr hid hg hl =>
    refine .failed ?_ (hr.idTaken_eq fun _ _ _ _ => by simp) rfl
    rintro v ⟨g, hg, -, hne, -⟩
    rw [hk.running_congr hk' fun _ _ _ _ => Iff.rfl] at hg
    exact hne hg
  | @switched _ ep tp f g p t r rg id hr hid hg hl ha hne =>
    refine .done ?_ (hr.idTaken_eq fun _ _ _ _ => by simp) (by decide)
    intro v
    constructor
    · rintro ⟨_, _, _, _, hv⟩
      exact hv
    · rintro rfl
      refine ⟨g, switched_running hr, ?_, ?_, rfl⟩
      · have hkey := (HashTable.find_eq_some hid).2
        rw [Kernel.fiberKey, hg] at hkey
        simpa [Kernel.fiberKey, Kernel.switched, hne, takenFiber] using hkey
      · rw [hr.running_eq]
        exact fun he => hne (Option.some.inj he).symm
  | fls hr hfls =>
    cases c with
    | flsAlloc => exact told_flsAlloc hr
    | flsFree index => exact told_flsFree hr index
    | flsGetValue => exact absurd hc id
    | flsSetValue => exact absurd hc id
    | _ => simp [Call.isFls] at hfls
  | detached => exact absurd hc id
  | lastExit => exact absurd hc id

/-! ## What `ioctl` returns -/

theorem libcIoctl_of_error {e : ℤ} (h : -4095 ≤ e ∧ e < 0) : libcIoctl e = -1 := if_pos h

/-- A result that is no error comes through if it fits into an `int`. -/
theorem libcIoctl_of_fits {r : ℤ} (hlo : -2 ^ 31 ≤ r) (hhi : r < 2 ^ 31)
    (h : ¬ (-4095 ≤ r ∧ r < 0)) : libcIoctl r = r := by
  unfold libcIoctl
  rw [if_neg h, BitVec.toInt_ofInt, Int.bmod_eq_of_le (by push_cast; omega) (by push_cast; omega)]

section Out

variable {cmd : BitVec 32} {u : UserAccess} {index : ℤ} {fa : FiberArguments}

theorem fibersIoctlOut_get (cur : Task) (k : Kernel)
    (hdec : decode E cmd u = .ok (.flsGetValue index)) (hu : u.arguments = some fa) :
    fibersIoctlOut E cur cmd u k =
      (doFlsGetValue E cur index cur.pid k).map fun x =>
        (if u.copyToUser then (0, some (fa.buffer, x.1)) else (eFault, none), x.2) := by
  unfold fibersIoctlOut
  rw [hdec, hu]
  simp only [K.bind_apply]
  cases doFlsGetValue E cur index cur.pid k with
  | none => rfl
  | some x => cases u.copyToUser <;> rfl

theorem fibersIoctlOut_other (k : Kernel)
    (h : ∀ index, decode E cmd u = .ok (.flsGetValue index) → u.arguments = none) :
    fibersIoctlOut E cur cmd u k = (fibersIoctl E cur cmd u k).map fun x => ((x.1, none), x.2) := by
  have hout : fibersIoctlOut E cur cmd u = do return (← fibersIoctl E cur cmd u, none) := by
    unfold fibersIoctlOut
    split
    · next index fa hdec hu =>
      rw [h index hdec] at hu
      cases hu
    · rfl
  rw [hout, K.bind_apply]
  cases fibersIoctl E cur cmd u k <;> rfl

/-- `fibers_ioctl` is `fibersIoctlOut` without what is written. -/
theorem fibersIoctl_eq_out (cmd : BitVec 32) (u : UserAccess) (k : Kernel) :
    fibersIoctl E cur cmd u k = (fibersIoctlOut E cur cmd u k).map fun x => (x.1.1, x.2) := by
  by_cases h : ∀ index, decode E cmd u = .ok (.flsGetValue index) → u.arguments = none
  · rw [fibersIoctlOut_other k h, Option.map_map]
    cases fibersIoctl E cur cmd u k <;> rfl
  · obtain ⟨index, hindex⟩ := not_forall.mp h
    obtain ⟨hdec, hu⟩ := Classical.not_imp.mp hindex
    obtain ⟨fa, hfa⟩ := Option.ne_none_iff_exists'.mp hu
    rw [fibersIoctlOut_get cur k hdec hfa, fibersIoctl_eq, hdec]
    simp only [Call.run, K.bind_apply, Call.ioctlResult]
    cases doFlsGetValue E cur index cur.pid k with
    | none => rfl
    | some x => cases u.copyToUser <;> rfl

end Out

/-- A command the module does not know. -/
theorem decode_unknown {cmd : BitVec 32} (u : UserAccess)
    (h : ∀ j, j < maxIoctlCmds → isCmd E cmd (BitVec.ofNat 64 j) = false) :
    decode E cmd u = .error eInval := by
  have h0 := h 0 (by decide)
  have h1 := h 1 (by decide)
  have h2 := h 2 (by decide)
  have h3 := h 3 (by decide)
  have h4 := h 4 (by decide)
  have h5 := h 5 (by decide)
  have h6 := h 6 (by decide)
  unfold decode
  simp only [BitVec.ofNat_eq_ofNat] at h0 h1 h2 h3 h4 h5 h6 ⊢
  rw [h0, h1, h2, h3, h4, h5, h6]
  rfl

/-- The library's numbers are the module's, or the module knows none of them. -/
def Fiberlib.SpeaksTo (lib : Fiberlib) (E : Env) : Prop :=
  (∀ nr, nr < maxIoctlCmds → lib.ioctlNumbers nr = ioctlCmd E (BitVec.ofNat 64 nr)) ∨
    ∀ nr, nr < maxIoctlCmds → ∀ j, j < maxIoctlCmds →
      isCmd E ((lib.ioctlNumbers nr).setWidth 32) (BitVec.ofNat 64 j) = false

/-- The library after the handshake. -/
theorem Fiberlib.SpeaksTo.of_handshake {lib : Fiberlib}
    (h : ∀ nr, nr < maxIoctlCmds → lib.ioctlNumbers nr = ioctlCmd E (BitVec.ofNat 64 nr)) :
    lib.SpeaksTo E := .inl h

/-- The library when there was no device to open. -/
theorem Fiberlib.SpeaksTo.of_zero (hpos : 0 < E.major.toNat) (hmajor : E.major.toNat < 2 ^ 24) :
    (⟨false, fun _ => 0⟩ : Fiberlib).SpeaksTo E := by
  refine .inr fun nr _ j hj => ?_
  have hj7 : j < 7 := hj
  have hval : (ioctlCmd E (BitVec.ofNat 64 j)).toNat = E.major.toNat * 256 + j :=
    ioctlCmd_toNat hmajor (by omega)
  unfold isCmd
  rw [beq_eq_false_iff_ne]
  intro heq
  rw [← heq] at hval
  change 0 = _ at hval
  omega

namespace LibraryCall

variable {lib : Fiberlib} {o : Outside} {l : LibraryCall}

/-- The call gets to the module, which knows the command and can fetch the arguments. -/
structure Reaches (E : Env) (lib : Fiberlib) (o : Outside) (l : LibraryCall) : Prop where
  descriptor : o.refused = none
  command : lib.ioctlNumbers l.number = ioctlCmd E (BitVec.ofNat 64 l.number)
  arguments : l.arguments.isSome → o.accessOk = true ∧ o.copyFromUser = true

theorem access_arguments (h : o.accessOk = true ∧ o.copyFromUser = true) :
    (l.access o).arguments = l.arguments := by
  simp [UserAccess.arguments, access, h.1, h.2]

theorem access_arguments_none (h : ¬ (o.accessOk = true ∧ o.copyFromUser = true)) :
    (l.access o).arguments = none := by
  show (if o.accessOk then (if o.copyFromUser then l.arguments else none) else none) = none
  split_ifs with h1 h2
  · exact absurd ⟨h1, h2⟩ h
  · rfl
  · rfl

theorem Reaches.decode_eq (h : Reaches E lib o l) (hmajor : E.major.toNat < 2 ^ 24) :
    decode E (lib.command l) (l.access o) = .ok l.operation := by
  refine decode_command hmajor h.command ?_
  intro fa hfa
  rw [access_arguments (h.arguments (by rw [hfa]; rfl)), hfa]

/-- A call that does not get to the module, or that the module turns down. -/
theorem ioctl_of_not_reaches (cur : Task) (k : Kernel) (hmajor : E.major.toNat < 2 ^ 24)
    (hlib : lib.SpeaksTo E) (h : ¬ Reaches E lib o l) :
    l.ioctl E lib cur o k = some ((-1, none), k) := by
  unfold ioctl
  cases hrefused : o.refused with
  | some e =>
    have hle := e.le
    have hpos := e.pos
    simp only [libcIoctl_of_error (e := -(e.val : ℤ)) (by omega)]
    rfl
  | none =>
    have hdec : ∃ e, decode E (lib.command l) (l.access o) = .error e ∧ -4095 ≤ e ∧ e < 0 := by
      rcases hlib with hnums | hnone
      · have hcommand := hnums l.number l.number_lt
        obtain ⟨hsome, hnot⟩ : l.arguments.isSome ∧
            ¬ (o.accessOk = true ∧ o.copyFromUser = true) := by
          by_contra hn
          refine h ⟨hrefused, hcommand, ?_⟩
          intro hsome
          by_contra hc
          exact hn ⟨hsome, hc⟩
        have hu := access_arguments_none (l := l) hnot
        refine ⟨eFault, ?_, by decide⟩
        rw [decode_number hmajor hcommand (fun _ _ _ hfa' => by rw [hu] at hfa'; cases hfa'), hu,
          if_pos ⟨hsome, rfl⟩]
      · exact ⟨eInval, decode_unknown _ (hnone l.number l.number_lt), by decide⟩
    obtain ⟨e, hdec, hlo, hhi⟩ := hdec
    have hout : fibersIoctlOut E cur (lib.command l) (l.access o) k = some ((e, none), k) := by
      rw [fibersIoctlOut_other k (by rw [hdec]; exact fun _ hn => by cases hn), fibersIoctl_eq, hdec]
      rfl
    simp only [K.bind_apply, hout, Option.bind_some, libcIoctl_of_error ⟨hlo, hhi⟩]
    rfl

/-- A call that the module runs. -/
theorem ioctl_of_reaches (hmajor : E.major.toNat < 2 ^ 24) (h : Reaches E lib o l)
    (hrun : l.operation.run E cur k = some (res, k')) : ∃ w, l.ioctl E lib cur o k =
      some ((libcIoctl (l.operation.ioctlResult (l.access o) res), w), k') := by
  have hioctl : fibersIoctl E cur (lib.command l) (l.access o) k =
      some (l.operation.ioctlResult (l.access o) res, k') := by
    rw [fibersIoctl_eq, h.decode_eq hmajor]
    simp only [hrun, Option.map_some]
  rw [fibersIoctl_eq_out, Option.map_eq_some_iff] at hioctl
  obtain ⟨⟨⟨r, w⟩, k''⟩, hout, heq⟩ := hioctl
  obtain ⟨rfl, rfl⟩ := Prod.mk.inj heq
  refine ⟨w, ?_⟩
  unfold ioctl
  rw [h.descriptor]
  simp only [K.bind_apply, hout]
  rfl

/-- What the kernel leaves at the address `a` that `FlsGetValue` passes. -/
theorem ioctl_FlsGetValue {index a : Word} (hmajor : E.major.toNat < 2 ^ 24)
    (h : Reaches E lib o (FlsGetValue index a)) (hcopy : o.copyToUser = true) {v : Word}
    (hrun : doFlsGetValue E cur index.toInt cur.pid k = some (v, k')) :
    (FlsGetValue index a).ioctl E lib cur o k = some ((0, some (a, v)), k') := by
  have hargs := access_arguments (l := FlsGetValue index a) (h.arguments rfl)
  have hto : (access o (FlsGetValue index a)).copyToUser = true := hcopy
  have hout := fibersIoctlOut_get cur k (h.decode_eq hmajor) hargs
  unfold ioctl
  rw [h.descriptor]
  simp only [K.bind_apply, hout, hrun, hto]
  rfl

/-! ## What the functions report -/

/-- What the function returns if the operation did not take effect: -1, or `false`. -/
def failure : LibraryCall → ℤ
  | FlsFree _ => 0
  | _ => -1

/-- The result `res` of the function tells what became of the operation: the failure
    value if it did not take effect between `k` and `k'`, and otherwise what it made.
    `FlsSetValue` has no result, but passes its arguments on, and `FlsGetValue` returns
    the value the module gave. -/
def Reports (E : Env) (lib : Fiberlib) (cur : Task) (o : Outside) (k : Kernel) (res : ℤ)
    (k' : Kernel) (l : LibraryCall) : Prop :=
  match l with
  | FlsSetValue buffer index => l.Reaches E lib o →
      doFlsSetValue E cur index.toInt buffer cur.pid k = some ((), k')
  | FlsGetValue index _ => ∀ w, l.ioctl E lib cur o k = some ((0, w), k') →
      ∃ v, doFlsGetValue E cur index.toInt cur.pid k = some (v, k') ∧ res = v.toInt
  | l => (res = l.failure ↔ ¬ ∃ v, l.operation.Effected E k cur k' v) ∧
      ∀ v, l.operation.Effected E k cur k' v → res = v

/-- The id reads as an error number. -/
def errnoId (id : PidT) : Prop := -4095 ≤ id.toInt ∧ id.toInt < 0

/-- The condition on a call: `FlsFree` gets to the module, and no fiber is made whose id
    reads as an error number. -/
def Clear (E : Env) (lib : Fiberlib) (cur : Task) (o : Outside) (k : Kernel) (l : LibraryCall) :
    Prop :=
  match l with
  | FlsFree _ => l.Reaches E lib o
  | ConvertThreadToFiber =>
    l.Reaches E lib o → ∀ id, k.idTaken E cur l.operation = some id → ¬ errnoId id
  | CreateFiber .. =>
    o.memalign = true → l.Reaches E lib o →
      ∀ id, k.idTaken E cur l.operation = some id → ¬ errnoId id
  | _ => True

/-- A result that went through the C library. -/
theorem reports_of_told (h : c.Told E k cur k' res) (hc : c.refused = -1) :
    ((libcIoctl res = -1 ↔ ¬ ∃ v, c.Effected E k cur k' v) ∧
      ∀ v, c.Effected E k cur k' v → libcIoctl res = v) ↔
    ∀ id, k.idTaken E cur c = some id → ¬ errnoId id := by
  cases h with
  | @made id heff hid hres =>
    have hsome : ∃ v, c.Effected E k cur k' v := ⟨res, (heff res).mpr rfl⟩
    have hlo := BitVec.le_toInt id
    have hhi := BitVec.toInt_lt (x := id)
    by_cases herr : errnoId id
    · refine iff_of_false ?_ fun hall => hall id hid herr
      rintro ⟨hfail, -⟩
      rw [hres, libcIoctl_of_error herr] at hfail
      exact hfail.mp rfl hsome
    · have hval : libcIoctl res = res := by
        rw [hres]
        exact libcIoctl_of_fits (by simpa using hlo) (by simpa using hhi) herr
      refine iff_of_true ⟨?_, ?_⟩ ?_
      · refine iff_of_false ?_ (not_not.mpr hsome)
        intro hneg
        rw [hval, hres] at hneg
        exact herr ⟨by omega, by omega⟩
      · intro v hv
        rw [hval, (heff v).mp hv]
      · intro id' hid'
        obtain rfl := Option.some.inj (hid.symm.trans hid')
        exact herr
  | done heff hid hres =>
    have hval : libcIoctl res = res := libcIoctl_of_fits (by omega) (by omega) (by omega)
    refine iff_of_true ⟨?_, ?_⟩ ?_
    · rw [hval]
      exact iff_of_false (by omega) (not_not.mpr ⟨res, (heff res).mpr rfl⟩)
    · intro v hv
      rw [hval, (heff v).mp hv]
    · intro id hid'
      rw [hid] at hid'
      cases hid'
  | failed heff hid hres =>
    refine iff_of_true ⟨?_, fun v hv => absurd hv (heff v)⟩ ?_
    · rw [hres, hc]
      exact iff_of_true (libcIoctl_of_error (by omega)) (not_exists.mpr heff)
    · intro id hid'
      rw [hid] at hid'
      cases hid'

/-- A call that was turned down did nothing. -/
theorem reports_failure (c : Call) : ((-1 : ℤ) = -1 ↔ ¬ ∃ v, c.Effected E k cur k v) ∧
    ∀ v, c.Effected E k cur k v → (-1 : ℤ) = v :=
  ⟨iff_of_true rfl (not_exists.mpr not_effected_self),
    fun v hv => absurd hv (not_effected_self v)⟩

theorem idTaken_none (hconvert : c ≠ .convert)
    (hcreate : ∀ sp sz fn arg, c ≠ .create sp sz fn arg) : k.idTaken E cur c = none := by
  unfold Kernel.idTaken
  split
  · exact if_neg hconvert
  · split
    · exact absurd rfl hconvert
    · exact absurd rfl (hcreate _ _ _ _)
    · rfl

/-- The ways a call can go. -/
inductive Goes (E : Env) (lib : Fiberlib) (cur : Task) (o : Outside) (k : Kernel) (l : LibraryCall)
    (n : ℤ) (w : Option (Word × Word)) (k' : Kernel) : Prop
  | reached {res : ℤ} (h : l.Reaches E lib o)
      (hout : Outcome E k (.call cur l.operation) res k')
      (hrun : l.operation.run E cur k = some (res, k'))
      (hn : n = libcIoctl (l.operation.ioctlResult (l.access o) res)) : Goes E lib cur o k l n w k'
  | stopped (h : ¬ l.Reaches E lib o) (hn : n = -1) (hw : w = none) (hk : k' = k) :
      Goes E lib cur o k l n w k'

theorem exists_goes (hk : Inv E k) (hmajor : E.major.toNat < 2 ^ 24) (hlib : lib.SpeaksTo E)
    (cur : Task) (o : Outside) (l : LibraryCall) :
    ∃ n w k', l.ioctl E lib cur o k = some ((n, w), k') ∧ Goes E lib cur o k l n w k' := by
  by_cases h : l.Reaches E lib o
  · obtain ⟨res, k', hrun, hout⟩ := hk.toShape.outcome (.call cur l.operation)
    obtain ⟨w, hioctl⟩ := ioctl_of_reaches hmajor h hrun
    exact ⟨_, w, k', hioctl, .reached h hout hrun rfl⟩
  · exact ⟨-1, none, k, ioctl_of_not_reaches cur k hmajor hlib h, .stopped h rfl rfl rfl⟩

variable {n : ℤ} {w : Option (Word × Word)}

/-- The functions that return what `ioctl` returns. -/
theorem Goes.reports_int (h : Goes E lib cur o k l n w k') (hk : Inv E k)
    (htells : l.operation.tells) (hrefused : l.operation.refused = -1)
    (hresult : ∀ u res, l.operation.ioctlResult u res = res) :
    ((n = -1 ↔ ¬ ∃ v, l.operation.Effected E k cur k' v) ∧
      ∀ v, l.operation.Effected E k cur k' v → n = v) ↔
    (l.Reaches E lib o → ∀ id, k.idTaken E cur l.operation = some id → ¬ errnoId id) := by
  cases h with
  | reached h hout hrun hn =>
    rw [hn, hresult, reports_of_told (hout.told hk htells) hrefused]
    exact ⟨fun hid _ => hid, fun hid => hid h⟩
  | stopped h hn hw hk' =>
    rw [hn, hk']
    exact iff_of_true (reports_failure _) fun hr => absurd hr h

/-- Without a new id there is nothing to be taken for an error number. -/
theorem Goes.reports_noId (h : Goes E lib cur o k l n w k') (hk : Inv E k)
    (htells : l.operation.tells) (hrefused : l.operation.refused = -1)
    (hresult : ∀ u res, l.operation.ioctlResult u res = res)
    (hid : k.idTaken E cur l.operation = none) :
    (n = -1 ↔ ¬ ∃ v, l.operation.Effected E k cur k' v) ∧
      ∀ v, l.operation.Effected E k cur k' v → n = v := by
  refine (h.reports_int hk htells hrefused hresult).mpr ?_
  intro _ id hid'
  rw [hid] at hid'
  cases hid'

/-- `FlsFree` makes a `bool` of it. -/
theorem Goes.reports_FlsFree {index : Word} (h : Goes E lib cur o k (FlsFree index) n w k')
    (hk : Inv E k) : (FlsFree index).Reports E lib cur o k (if n ≠ 0 then 1 else 0) k' ↔
      (FlsFree index).Reaches E lib o := by
  cases h with
  | reached h hout hrun hn =>
    refine iff_of_true ?_ h
    rename_i res
    have hresult : (FlsFree index).operation.ioctlResult ((FlsFree index).access o) res = res := rfl
    rw [hresult] at hn
    cases hout.told hk trivial with
    | made heff hid hres =>
      rw [idTaken_none (by simp [operation]) (by simp [operation])] at hid
      cases hid
    | done heff hid hres =>
      obtain ⟨-, -, -, -, -, -, -, -, -, -, hone⟩ := (heff res).mpr rfl
      subst hone
      obtain rfl : n = 1 := hn
      refine ⟨iff_of_false (by simp [failure]) (not_not.mpr ⟨1, (heff 1).mpr rfl⟩), ?_⟩
      intro v hv
      rw [(heff v).mp hv]
      rfl
    | failed heff hid hres =>
      obtain rfl : res = 0 := hres
      obtain rfl : n = 0 := hn
      exact ⟨iff_of_true rfl (not_exists.mpr heff), fun v hv => absurd hv (heff v)⟩
  | stopped h hn hw hk' =>
    refine iff_of_false ?_ h
    rintro ⟨hfail, -⟩
    rw [hn, hk'] at hfail
    have hzero := hfail.mpr (not_exists.mpr not_effected_self)
    simp [failure] at hzero

/-- What the module gives is what `FlsGetValue` returns. -/
theorem Goes.reports_FlsGetValue {index a : Word}
    (h : Goes E lib cur o k (FlsGetValue index a) n w k') (hmajor : E.major.toNat < 2 ^ 24)
    (hioctl : (FlsGetValue index a).ioctl E lib cur o k = some ((n, w), k')) :
    (FlsGetValue index a).Reports E lib cur o k (localAfter a w) k' := by
  intro w' hw'
  rw [hioctl] at hw'
  obtain ⟨hzero, -⟩ : n = 0 ∧ w = w' := by simpa using hw'
  cases h with
  | reached h hout hrun hn =>
    have hcopy : o.copyToUser = true := by
      by_contra hnot
      have hfault : libcIoctl eFault = -1 := libcIoctl_of_error (by decide)
      simp [operation, Call.ioctlResult, access, hnot, hfault] at hn
      omega
    simp only [operation, Call.run, K.bind_eq_some] at hrun
    obtain ⟨v, k₁, hget, hrun⟩ := hrun
    obtain ⟨-, rfl⟩ := Prod.mk.inj (Option.some.inj hrun)
    refine ⟨v, hget, ?_⟩
    have hwrite := ioctl_FlsGetValue hmajor h hcopy hget
    rw [hioctl] at hwrite
    obtain ⟨-, rfl⟩ : n = 0 ∧ w = some (a, v) := by simpa using hwrite
    exact if_pos rfl
  | stopped h hn hw hk' => omega

/-- `CreateFiber` when `posix_memalign` gave it a block. -/
theorem run_CreateFiber {fn size params base : Word} (hmem : o.memalign = true)
    (hioctl : (CreateFiber fn size params base).ioctl E lib cur o k = some ((n, w), k')) :
    (CreateFiber fn size params base).run E lib cur o k = some (n, k') := by
  simp only [run, hmem]
  rw [if_neg (by decide), K.bind_apply, hioctl]
  rfl

theorem run_CreateFiber_noMemory {fn size params base : Word} (hmem : o.memalign = false) :
    (CreateFiber fn size params base).run E lib cur o k = some (-1, k) := by
  simp only [run, hmem]
  rfl

/-- The function returns, and what it returns tells what became of the operation just if
    the call is clear. -/
theorem wrapper_reports_iff (hk : Reachable E k) (hmajor : E.major.toNat < 2 ^ 24)
    (hlib : lib.SpeaksTo E) (cur : Task) (o : Outside) (l : LibraryCall) :
    ∃ res k', l.run E lib cur o k = some (res, k') ∧
      (l.Reports E lib cur o k res k' ↔ l.Clear E lib cur o k) := by
  obtain ⟨n, w, k', hioctl, hgoes⟩ := exists_goes hk.inv hmajor hlib cur o l
  cases l with
  | ConvertThreadToFiber =>
    refine ⟨n, k', ?_, hgoes.reports_int hk.inv trivial rfl fun _ _ => rfl⟩
    simp only [run, K.bind_apply, hioctl]
    rfl
  | CreateFiber fn size params sp =>
    cases hmem : o.memalign with
    | false =>
      refine ⟨-1, k, run_CreateFiber_noMemory hmem, iff_of_true (reports_failure _) ?_⟩
      intro h
      rw [hmem] at h
      cases h
    | true =>
      have hiff := hgoes.reports_int hk.inv trivial rfl fun _ _ => rfl
      refine ⟨n, k', run_CreateFiber hmem hioctl, hiff.trans ?_⟩
      exact ⟨fun h _ => h, fun h => h hmem⟩
  | SwitchToFiber id =>
    refine ⟨n, k', ?_, ?_⟩
    · simp only [run, K.bind_apply, hioctl]
      rfl
    · refine iff_of_true (hgoes.reports_noId hk.inv trivial rfl (fun _ _ => rfl) ?_) trivial
      exact idTaken_none (by simp [operation]) (by simp [operation])
  | FlsAlloc =>
    refine ⟨n, k', ?_, ?_⟩
    · simp only [run, K.bind_apply, hioctl]
      rfl
    · refine iff_of_true (hgoes.reports_noId hk.inv trivial rfl (fun _ _ => rfl) ?_) trivial
      exact idTaken_none (by simp [operation]) (by simp [operation])
  | FlsFree index =>
    refine ⟨_, k', ?_, hgoes.reports_FlsFree hk.inv⟩
    simp only [run, K.bind_apply, hioctl]
    rfl
  | FlsGetValue index a =>
    refine ⟨localAfter a w, k', ?_, iff_of_true (hgoes.reports_FlsGetValue hmajor hioctl) trivial⟩
    simp only [run, K.bind_apply, hioctl]
    rfl
  | FlsSetValue buffer index =>
    refine ⟨0, k', ?_, iff_of_true ?_ trivial⟩
    · simp only [run, K.bind_apply, hioctl]
      rfl
    · intro hreaches
      cases hgoes with
      | reached h hout hrun hn =>
        simp only [operation, Call.run, K.bind_eq_some] at hrun
        obtain ⟨⟨⟩, k₁, hset, hrun⟩ := hrun
        obtain ⟨-, rfl⟩ := Prod.mk.inj (Option.some.inj hrun)
        exact hset
      | stopped h => exact absurd hreaches h

/-- A thread that is not converted gives back an index. -/
theorem wrapper_reports_boot :
    let lib : Fiberlib := ⟨true, fun nr => ioctlCmd (.linux 240) (BitVec.ofNat 64 nr)⟩
    let o : Outside := ⟨true, none, true, true, true⟩
    ∃ res k', (FlsFree 3).run (.linux 240) lib ⟨7, 7⟩ o (Kernel.boot fun _ => .zero) =
        some (res, k') ∧
      (FlsFree 3).Reports (.linux 240) lib ⟨7, 7⟩ o (Kernel.boot fun _ => .zero) res k' := by
  intro lib o
  have hlib : lib.SpeaksTo (.linux 240) := .of_handshake fun _ _ => rfl
  obtain ⟨res, k', hrun, hiff⟩ :=
    wrapper_reports_iff (.boot fun _ => .zero) (by decide) hlib ⟨7, 7⟩ o (FlsFree 3)
  exact ⟨res, k', hrun, hiff.mpr ⟨rfl, rfl, fun _ => ⟨rfl, rfl⟩⟩⟩

/-- The module is not loaded, so that the descriptor is -1: `FlsFree` says `true`. -/
theorem wrapper_misreports :
    let lib : Fiberlib := ⟨false, fun _ => 0⟩
    let o : Outside := ⟨true, some eBadf, true, true, true⟩
    lib.SpeaksTo (.linux 240) ∧ ∃ res k',
      (FlsFree 3).run (.linux 240) lib ⟨7, 7⟩ o (Kernel.boot fun _ => .zero) = some (res, k') ∧
      ¬ (FlsFree 3).Reports (.linux 240) lib ⟨7, 7⟩ o (Kernel.boot fun _ => .zero) res k' := by
  intro lib o
  have hlib : lib.SpeaksTo (.linux 240) := .of_zero (by decide) (by decide)
  have hnot : ¬ (FlsFree 3).Reaches (.linux 240) lib o := fun h => by cases h.descriptor
  have hioctl := ioctl_of_not_reaches ⟨7, 7⟩ (Kernel.boot fun _ => .zero) (by decide) hlib hnot
  refine ⟨hlib, 1, Kernel.boot fun _ => .zero, ?_, ?_⟩
  · simp only [run, K.bind_apply, hioctl]
    rfl
  · rintro ⟨hfail, -⟩
    have hzero := hfail.mpr (not_exists.mpr not_effected_self)
    simp [failure] at hzero

end LibraryCall

end AosvFibers
