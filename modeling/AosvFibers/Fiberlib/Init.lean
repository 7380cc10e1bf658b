import AosvFibers.Lib.CString
import AosvFibers.Atomic.Failure

/-!
# The handshake between module and library

The commands of `fibers_ioctl` depend on the device's major number, which is
assigned when the module is loaded. `publish_ioctl_message` prints them into
`string_message`, one number a line, `fibers_read` hands the text out, and
`fiberlib_init` reads it and cuts it into numbers with `strtok` and `strtol`.

The buffer of `fiberlib_init` is on the stack, is not initialised and is not
NUL-terminated after the reads. The library's memory is therefore a list `mem`
of bytes from the buffer on: 256 arbitrary bytes and whatever follows them up
to the first NUL. In the same way the module's memory is `string_message` and
what follows it.

Result: `handshake_round_trip`.
-/

namespace AosvFibers

open Lib

/-- `MESSAGE_MAX_LEN` (module/ioctl.h:9) -/
abbrev messageMaxLen : ℕ := 256

/-- `MAX_IOCTL_CMDS` (fiberlib/fiberlib.h) -/
abbrev maxIoctlCmds : ℕ := 7

/-! ## The module's side -/

/-- What `%ld` prints. -/
def ldText (w : Word) : List Byte :=
  if w.toInt < 0 then 45 :: decimal w.toInt.natAbs else decimal w.toInt.natAbs

/-- The text of `publish_ioctl_message`, the seven commands with a newline
    (byte 10) after each. -/
def ioctlText (E : Env) : List Byte :=
  (List.range maxIoctlCmds).flatMap fun nr => ldText (ioctlCmd E (BitVec.ofNat 64 nr)) ++ [10]

/-- `string_message` after `publish_ioctl_message` (module/ioctl.c:9-21). -/
def publishIoctlMessage (E : Env) : List Byte :=
  snprintf (List.replicate messageMaxLen 0) messageMaxLen (ioctlText E)

/-- What a `read` gives: some bytes, or -1 with `errno`. -/
inductive ReadResult
  | data (bs : List Byte)
  | error (errno : ℤ)

/-- `fibers_read` (module/device.c:8-20) on the memory from `string_message` on,
    with the next file offset. `copies` says whether `copy_to_user` succeeds. -/
def fibersRead (mem : List Byte) (copies : Bool) (len off : ℕ) : ReadResult × ℕ :=
  if strnlen mem messageMaxLen ≤ off then (.data [], off)
  else
    let i := min len (strnlen mem messageMaxLen)
    if !copies then (.error 14, off)
    else (.data ((mem.drop off).take i), off + i)

/-! ## The library's side -/

/-- The library's globals (fiberlib/fiberlib.h). -/
structure Fiberlib where
  initialized : Bool
  ioctlNumbers : ℕ → Word

/-- The read loop of `fiberlib_init` (fiberlib/fiberlib.c:13-19) against a source
    of read results: `none` if it is still running after `fuel` calls,
    `some none` if it gave up, and otherwise the memory it leaves. An
    interrupted call is told by `errno == -EINTR`. -/
def readMessage {σ : Type} (read : ℕ → σ → ReadResult × σ) :
    ℕ → List Byte → ℕ → σ → Option (Option (List Byte))
  | 0, _, _, _ => none
  | fuel + 1, mem, bytesRead, st =>
    match read (256 - bytesRead) st with
    | (.data bs, st) =>
      if bs = [] then some (some mem)
      else readMessage read fuel (writeAt mem bytesRead bs) (bytesRead + bs.length) st
    | (.error errno, st) =>
      if errno = -4 then readMessage read fuel mem bytesRead st else some none

/-- The token loop (fiberlib/fiberlib.c:27-33) with room for `n` more numbers. -/
def parseNumbers : ℕ → ℕ → Option ℕ → ℕ → List Byte → (ℕ → Word) → ℕ → Word
  | 0, _, _, _, _, nums => nums
  | _ + 1, _, none, _, _, nums => nums
  | n + 1, i, some token, pos, mem, nums =>
    let nums := Function.update nums i (BitVec.ofInt 64 (strtol (mem.drop token)))
    let (token, pos, mem) := strtok [10] mem pos
    parseNumbers n (i + 1) token pos mem nums

/-- `fiberlib_init` (fiberlib/fiberlib.c:7-36). -/
def fiberlibInit {σ : Type} (read : ℕ → σ → ReadResult × σ) (fuel : ℕ) (mem : List Byte) (st : σ) :
    Option Fiberlib := do
  match ← readMessage read fuel mem 0 st with
  | none => return ⟨false, fun _ => 0⟩
  | some mem =>
    let (token, pos, mem) := strtok [10] mem 0
    return ⟨true, parseNumbers maxIoctlCmds 0 token pos mem fun _ => 0⟩

/-- The functions the library offers (fiberlib/fiberlib.c:45-116), with the
    memory `posix_memalign` returned and the address of the local `a`. -/
inductive LibraryCall
  | ConvertThreadToFiber
  | CreateFiber (functionPointer stackSize parameters stackPointer : Word)
  | SwitchToFiber (fiberId : PidT)
  | FlsAlloc
  | FlsFree (index : Word)
  | FlsGetValue (index a : Word)
  | FlsSetValue (buffer index : Word)

namespace LibraryCall

/-- The index into `ioctl_numbers`, a member of `enum IOCTL_TYPE`. -/
def number : LibraryCall → ℕ
  | ConvertThreadToFiber => 0
  | CreateFiber .. => 1
  | SwitchToFiber _ => 2
  | FlsAlloc => 3
  | FlsFree _ => 4
  | FlsGetValue .. => 5
  | FlsSetValue .. => 6

/-- The `struct fiber_arguments` passed to `ioctl`, if any. -/
def arguments : LibraryCall → Option FiberArguments
  | ConvertThreadToFiber | FlsAlloc => none
  | CreateFiber fn size params sp => some ⟨sp, size, fn, params, 0, 0, 0⟩
  | SwitchToFiber id => some ⟨0, 0, 0, 0, id, 0, 0⟩
  | FlsFree index => some ⟨0, 0, 0, 0, 0, index, 0⟩
  | FlsGetValue index a => some ⟨0, 0, 0, 0, 0, index, a⟩
  | FlsSetValue buffer index => some ⟨0, 0, 0, 0, 0, index, buffer⟩

/-- The kernel operation the function is for. -/
def operation : LibraryCall → Call
  | ConvertThreadToFiber => .convert
  | CreateFiber fn size params sp => .create sp size fn params
  | SwitchToFiber id => .switchTo id
  | FlsAlloc => .flsAlloc
  | FlsFree index => .flsFree index.toInt
  | FlsGetValue index _ => .flsGetValue index.toInt
  | FlsSetValue buffer index => .flsSetValue index.toInt buffer

theorem number_lt (c : LibraryCall) : c.number < maxIoctlCmds := by
  cases c <;> simp [number, maxIoctlCmds]

end LibraryCall

/-- The command as `fibers_ioctl` receives it: an `unsigned int`. -/
def Fiberlib.command (lib : Fiberlib) (c : LibraryCall) : BitVec 32 :=
  (lib.ioctlNumbers c.number).setWidth 32

/-! ## Commands -/

variable {E : Env} {nr : ℕ}

/-- The value of a command. -/
theorem ioctlCmd_toNat (hmajor : E.major.toNat < 2 ^ 24) (hnr : nr < 256) :
    (ioctlCmd E (BitVec.ofNat 64 nr)).toNat = E.major.toNat * 256 + nr := by
  unfold ioctlCmd
  rw [BitVec.toNat_or, BitVec.toNat_shiftLeft, BitVec.toNat_ofNat, Nat.shiftLeft_eq,
    Nat.mod_eq_of_lt (by omega : nr < 2 ^ 64), Nat.mod_eq_of_lt (by omega),
    ← Nat.shiftLeft_eq, ← Nat.shiftLeft_add_eq_or_of_lt (by omega : nr < 2 ^ 8), Nat.shiftLeft_eq]

theorem ldText_ioctlCmd (hmajor : E.major.toNat < 2 ^ 24) (hnr : nr < 256) :
    ldText (ioctlCmd E (BitVec.ofNat 64 nr)) = decimal (E.major.toNat * 256 + nr) := by
  have hval := ioctlCmd_toNat hmajor hnr
  have hint : (ioctlCmd E (BitVec.ofNat 64 nr)).toInt = (E.major.toNat * 256 + nr : ℕ) := by
    rw [BitVec.toInt_eq_toNat_of_lt (by omega), hval]
  unfold ldText
  rw [hint, if_neg (by omega), Int.natAbs_natCast]

/-- A command narrowed to 32 bits matches itself and no other. -/
theorem isCmd_setWidth (hmajor : E.major.toNat < 2 ^ 24) (hnr : nr < 256) {j : ℕ} (hj : j < 256) :
    isCmd E ((ioctlCmd E (BitVec.ofNat 64 nr)).setWidth 32) (BitVec.ofNat 64 j) = decide (nr = j) := by
  have hval := ioctlCmd_toNat hmajor hnr
  have hval' := ioctlCmd_toNat hmajor hj
  unfold isCmd
  rw [Bool.eq_iff_iff, beq_iff_eq, decide_eq_true_iff, ← BitVec.toNat_inj, BitVec.toNat_setWidth,
    BitVec.toNat_setWidth, hval, hval']
  omega

/-- The message as lines of decimal numbers. -/
def lines (ns : List ℕ) : List Byte := ns.flatMap fun n => decimal n ++ [10]

@[simp] theorem lines_cons (n : ℕ) (ns : List ℕ) :
    lines (n :: ns) = decimal n ++ 10 :: lines ns := by
  simp [lines]

/-- The values of the seven commands. -/
def ioctlValues (E : Env) : List ℕ := (List.range maxIoctlCmds).map (E.major.toNat * 256 + ·)

@[simp] theorem length_ioctlValues : (ioctlValues E).length = maxIoctlCmds := by
  simp [ioctlValues]

theorem ioctlText_eq (hmajor : E.major.toNat < 2 ^ 24) : ioctlText E = lines (ioctlValues E) := by
  unfold ioctlText lines ioctlValues
  rw [List.flatMap_map]
  apply List.flatMap_congr
  intro nr hnr
  have hlt : nr < 7 := List.mem_range.mp hnr
  rw [ldText_ioctlCmd hmajor (by omega)]

theorem length_lines_le {ns : List ℕ} {w : ℕ} (hw : 0 < w) (h : ∀ n ∈ ns, n < 10 ^ w) :
    (lines ns).length ≤ ns.length * (w + 1) := by
  induction ns with
  | nil => simp [lines]
  | cons n ns ih =>
    have hn := length_decimal_le hw (h n (by simp))
    have hns := ih fun m hm => h m (by simp [hm])
    rw [lines_cons, List.length_append, List.length_cons, List.length_cons, Nat.succ_mul]
    omega

/-- The message fits into `string_message`. -/
theorem length_ioctlText_lt (hmajor : E.major.toNat < 2 ^ 24) :
    (ioctlText E).length < messageMaxLen := by
  have hlt : ∀ n ∈ ioctlValues E, n < 10 ^ 10 := by
    intro n hn
    obtain ⟨nr, hnr, rfl⟩ := List.mem_map.mp hn
    have hnr7 : nr < 7 := List.mem_range.mp hnr
    omega
  have hle := length_lines_le (by omega) hlt
  rw [length_ioctlValues] at hle
  rw [ioctlText_eq hmajor]
  show (lines (ioctlValues E)).length < 256
  change (lines (ioctlValues E)).length ≤ 7 * 11 at hle
  omega

theorem ne_zero_of_mem_lines {ns : List ℕ} {b : Byte} (h : b ∈ lines ns) : b ≠ 0 := by
  obtain ⟨n, -, hb⟩ := List.mem_flatMap.mp h
  obtain hb | hb := List.mem_append.mp hb
  · have hdigit := isDigit_of_mem_decimal hb
    intro h0
    rw [h0] at hdigit
    exact absurd hdigit (by decide)
  · rw [List.mem_singleton.mp hb]
    decide

/-! ## Reading the message -/

section

variable {ns : List ℕ} {rest : List Byte}

/-- The two reads of `fiberlib_init`: the whole message, then the end. -/
theorem readMessage_fibersRead {text kmem : List Byte} (htext : ∀ b ∈ text, b ≠ 0)
    (hne : text ≠ []) (hlen : text.length < 256) {mem : List Byte} {fuel : ℕ} (hfuel : 2 ≤ fuel) :
    readMessage (fun len off => fibersRead (text ++ 0 :: kmem) true len off) fuel mem 0 0 =
      some (some (text ++ mem.drop text.length)) := by
  obtain ⟨n, rfl⟩ : ∃ n, fuel = n + 2 := ⟨fuel - 2, by omega⟩
  have hstrnlen : strnlen (text ++ 0 :: kmem) messageMaxLen = text.length :=
    strnlen_append_nul htext hlen
  have hpos := List.length_pos_iff.mpr hne
  have hfirst : fibersRead (text ++ 0 :: kmem) true 256 0 = (.data text, text.length) := by
    unfold fibersRead
    rw [hstrnlen, if_neg (by omega), Nat.min_eq_right (by omega)]
    simp
  have hsecond : fibersRead (text ++ 0 :: kmem) true (256 - text.length) text.length =
      (.data [], text.length) := by
    unfold fibersRead
    rw [hstrnlen, if_pos (by omega)]
  have hwrite : writeAt mem 0 text = text ++ mem.drop text.length := by simp [writeAt]
  simp only [readMessage, Nat.sub_zero, hfirst, hne, if_false, Nat.zero_add, hsecond, if_true, hwrite]

/-- The token loop over a list of lines: the numbers come out in order, whatever
    follows the lines in memory. -/
theorem parseNumbers_lines (hns : ∀ n ∈ ns, n < 2 ^ 63) (l : List Byte) (i : ℕ) (nums : ℕ → Word)
    {token : Option ℕ} {pos : ℕ} {mem : List Byte}
    (h : strtok [10] (l ++ (lines ns ++ rest)) l.length = (token, pos, mem)) (j : ℕ) :
    parseNumbers ns.length i token pos mem nums j =
      if i ≤ j ∧ j < i + ns.length then BitVec.ofNat 64 (ns.getD (j - i) 0) else nums j := by
  induction ns generalizing l i nums token pos mem with
  | nil =>
    rw [if_neg (by simp)]
    rfl
  | cons n ns ih =>
    have hin : ∀ c ∈ decimal n, c ∉ [(10 : Byte)] ∧ c ≠ 0 := by
      intro c hc
      have hdigit := isDigit_of_mem_decimal hc
      constructor
      · intro h10
        rw [List.mem_singleton.mp h10] at hdigit
        exact absurd hdigit (by decide)
      · intro h0
        rw [h0] at hdigit
        exact absurd hdigit (by decide)
    -- the token is cut off by a NUL, which also ends the number for `strtol`
    rw [lines_cons, List.append_assoc, List.cons_append,
      strtok_of_token (decimal_ne_nil n) hin (by simp) (by decide)] at h
    obtain ⟨rfl, rfl, rfl⟩ : some l.length = token ∧ l.length + (decimal n).length + 1 = pos ∧
        l ++ (decimal n ++ 0 :: (lines ns ++ rest)) = mem := by simpa using h
    have hval : strtol ((l ++ (decimal n ++ 0 :: (lines ns ++ rest))).drop l.length) = n := by
      rw [List.drop_left]
      exact strtol_decimal (hns n (by simp)) (by decide) _
    have hsplit : l ++ (decimal n ++ 0 :: (lines ns ++ rest)) =
        (l ++ decimal n ++ [0]) ++ (lines ns ++ rest) := by simp
    have hpos : l.length + (decimal n).length + 1 = (l ++ decimal n ++ [0]).length := by
      simp
      omega
    rw [List.length_cons, parseNumbers, hval, hsplit, hpos]
    have hrec := ih (fun m hm => hns m (by simp [hm])) (l ++ decimal n ++ [0]) (i + 1)
      (Function.update nums i (BitVec.ofInt 64 n)) rfl
    refine hrec.trans ?_
    by_cases hij : i = j
    · subst hij
      rw [if_neg (by omega), Function.update_self, if_pos (by omega), Nat.sub_self,
        List.getD_cons_zero, BitVec.ofInt_natCast]
    · by_cases hin' : i + 1 ≤ j ∧ j < i + 1 + ns.length
      · obtain ⟨d, hd⟩ : ∃ d, j - i = d + 1 := ⟨j - i - 1, by omega⟩
        rw [if_pos hin', if_pos (by omega), hd, List.getD_cons_succ,
          show j - (i + 1) = d by omega]
      · rw [if_neg hin', if_neg (by omega), Function.update_of_ne (Ne.symm hij)]

end

/-! ## The round trip -/

/-- The numbers `fiberlib_init` ends with, and that it ends. -/
theorem fiberlibInit_eq (hmajor : E.major.toNat < 2 ^ 24) (kmem mem : List Byte) : ∃ lib,
    (∀ fuel, 2 ≤ fuel → fiberlibInit
      (fun len off => fibersRead (publishIoctlMessage E ++ kmem) true len off) fuel mem 0 = some lib) ∧
    lib.initialized = true ∧
    ∀ nr, nr < maxIoctlCmds → lib.ioctlNumbers nr = ioctlCmd E (BitVec.ofNat 64 nr) := by
  have hlen := length_ioctlText_lt hmajor
  have htext := ioctlText_eq hmajor
  obtain ⟨kmem', hkmem⟩ : ∃ kmem', publishIoctlMessage E ++ kmem = lines (ioctlValues E) ++ 0 :: kmem' := by
    unfold publishIoctlMessage
    rw [snprintf_eq hlen, htext, List.append_assoc, List.cons_append]
    exact ⟨_, rfl⟩
  rw [htext] at hlen
  have hne : lines (ioctlValues E) ≠ [] := by
    unfold ioctlValues
    rw [show List.range maxIoctlCmds = 0 :: (List.range 6).map Nat.succ from List.range_succ_eq_map,
      List.map_cons, lines_cons]
    simp
  obtain ⟨token, pos, mem', htok⟩ : ∃ token pos mem', strtok [10]
      ([] ++ (lines (ioctlValues E) ++ mem.drop (lines (ioctlValues E)).length)) 0 =
        (token, pos, mem') := ⟨_, _, _, rfl⟩
  have hlt : ∀ n ∈ ioctlValues E, n < 2 ^ 63 := by
    intro n hn
    obtain ⟨nr, hnr, rfl⟩ := List.mem_map.mp hn
    have hnr7 : nr < 7 := List.mem_range.mp hnr
    omega
  have hparse := parseNumbers_lines hlt [] 0 (fun _ => 0) htok
  refine ⟨⟨true, parseNumbers maxIoctlCmds 0 token pos mem' fun _ => 0⟩, ?_, rfl, ?_⟩
  · intro fuel hfuel
    rw [hkmem]
    unfold fiberlibInit
    rw [readMessage_fibersRead (fun b hb => ne_zero_of_mem_lines hb) hne hlen hfuel]
    rw [List.nil_append] at htok
    simp only [Option.bind_eq_bind, Option.bind_some, htok, Option.pure_def]
  · intro nr hnr
    have hj := hparse nr
    rw [length_ioctlValues, if_pos (by omega)] at hj
    show parseNumbers maxIoctlCmds 0 token pos mem' (fun _ => 0) nr = _
    rw [hj, Nat.sub_zero]
    have hget : (ioctlValues E).getD nr 0 = E.major.toNat * 256 + nr := by
      simp [ioctlValues, hnr]
    have hnr7 : nr < 7 := hnr
    rw [hget, ← BitVec.toNat_inj, ioctlCmd_toNat hmajor (by omega), BitVec.toNat_ofNat]
    omega

/-- The command of a library call matches its own number and no other. -/
theorem isCmd_command (hmajor : E.major.toNat < 2 ^ 24) {lib : Fiberlib} {c : LibraryCall}
    (hlib : lib.ioctlNumbers c.number = ioctlCmd E (BitVec.ofNat 64 c.number)) {j : ℕ}
    (hj : j < 256) : isCmd E (lib.command c) (BitVec.ofNat 64 j) = decide (c.number = j) := by
  have hlt : c.number < 7 := c.number_lt
  unfold Fiberlib.command
  rw [hlib, isCmd_setWidth hmajor (by omega) hj]

/-- A library call reaches its own operation and no other, or fails with `EFAULT` when
    its arguments cannot be fetched. -/
theorem decode_number (hmajor : E.major.toNat < 2 ^ 24) {lib : Fiberlib} {c : LibraryCall}
    {u : UserAccess} (hlib : lib.ioctlNumbers c.number = ioctlCmd E (BitVec.ofNat 64 c.number))
    (hargs : ∀ fa fa', c.arguments = some fa → u.arguments = some fa' → fa' = fa) :
    decode E (lib.command c) u = if c.arguments.isSome ∧ u.arguments.isNone then .error eFault
      else .ok c.operation := by
  have h0 := isCmd_command hmajor hlib (j := 0) (by omega)
  have h1 := isCmd_command hmajor hlib (j := 1) (by omega)
  have h2 := isCmd_command hmajor hlib (j := 2) (by omega)
  have h3 := isCmd_command hmajor hlib (j := 3) (by omega)
  have h4 := isCmd_command hmajor hlib (j := 4) (by omega)
  have h5 := isCmd_command hmajor hlib (j := 5) (by omega)
  have h6 := isCmd_command hmajor hlib (j := 6) (by omega)
  unfold decode
  simp only [BitVec.ofNat_eq_ofNat] at h0 h1 h2 h3 h4 h5 h6 ⊢
  rw [h0, h1, h2, h3, h4, h5, h6]
  cases hu : u.arguments with
  | none => cases c <;> rfl
  | some fa =>
    cases c with
    | ConvertThreadToFiber => rfl
    | FlsAlloc => rfl
    | CreateFiber | SwitchToFiber | FlsFree | FlsGetValue | FlsSetValue =>
      rw [hargs _ fa rfl hu]
      rfl

/-- A library call whose arguments are fetched reaches its own operation. -/
theorem decode_command (hmajor : E.major.toNat < 2 ^ 24) {lib : Fiberlib} {c : LibraryCall}
    {u : UserAccess} (hlib : lib.ioctlNumbers c.number = ioctlCmd E (BitVec.ofNat 64 c.number))
    (hargs : ∀ fa, c.arguments = some fa → u.arguments = some fa) :
    decode E (lib.command c) u = .ok c.operation := by
  rw [decode_number hmajor hlib, if_neg]
  · rintro ⟨hsome, hnone⟩
    obtain ⟨fa, hfa⟩ := Option.isSome_iff_exists.mp hsome
    rw [hargs fa hfa] at hnone
    cases hnone
  · intro fa fa' hfa hfa'
    exact Option.some.inj (hfa'.symm.trans (hargs fa hfa))

/-- The commands published by the module come back unchanged in the library,
    whatever the buffer and the memory around it held, and every library call is
    then dispatched to its own operation. -/
theorem handshake_round_trip (hmajor : E.major.toNat < 2 ^ 24) (kmem : List Byte)
    (buf : Fin 256 → Byte) (beyond : List Byte) :
    (ioctlText E).length < messageMaxLen ∧
    ∃ lib, (∀ fuel, 2 ≤ fuel → fiberlibInit
        (fun len off => fibersRead (publishIoctlMessage E ++ kmem) true len off) fuel
          (List.ofFn buf ++ beyond) 0 = some lib) ∧
      lib.initialized = true ∧
      (∀ nr, nr < maxIoctlCmds → lib.ioctlNumbers nr = ioctlCmd E (BitVec.ofNat 64 nr)) ∧
      ∀ (c : LibraryCall) (cur : Task) (u : UserAccess) (k : Kernel),
        (∀ fa, c.arguments = some fa → u.arguments = some fa) →
        fibersIoctl E cur (lib.command c) u k =
          (c.operation.run E cur k).map fun x => (c.operation.ioctlResult u x.1, x.2) := by
  obtain ⟨lib, hinit, hdone, hnums⟩ := fiberlibInit_eq hmajor kmem (List.ofFn buf ++ beyond)
  refine ⟨length_ioctlText_lt hmajor, lib, hinit, hdone, hnums, ?_⟩
  intro c cur u k hargs
  rw [fibersIoctl_eq, decode_command hmajor (hnums c.number c.number_lt) hargs]

/-- Major number 240 and a buffer full of digits, with more digits behind it. -/
theorem handshake_round_trip_240 : ∃ lib,
    fiberlibInit (fun len off => fibersRead (publishIoctlMessage (.linux 240) ++ [49]) true len off) 2
      (List.ofFn (fun _ : Fin 256 => 49) ++ [49]) 0 = some lib ∧ lib.ioctlNumbers 6 = 61446 := by
  obtain ⟨-, lib, hinit, -, hnums, -⟩ := handshake_round_trip (E := .linux 240) (by decide) [49]
    (fun _ => 49) [49]
  refine ⟨lib, hinit 2 (by omega), ?_⟩
  rw [hnums 6 (by decide)]
  decide

end AosvFibers
