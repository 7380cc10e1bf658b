import AosvFibers.Lib.Reading
import AosvFibers.Fiberlib.Init

/-!
# The message in pieces

`fibers_read` computes the number of bytes from the whole length of the message and
copies from the current offset. A read that starts behind the beginning of the
message and asks for more than is left of it therefore goes past its end.

The read loop of `fiberlib_init` is to go on after an interruption, which it tells by
`errno == -EINTR`. `errno` is never negative, so an interruption ends it.

Results: `device_reads_iff`, `interrupted_init_iff`.
-/

namespace AosvFibers

open Lib

/-! ## Reading `/dev/fibers` -/

/-- The bytes a call returned. -/
def ReadResult.bytes : ReadResult → List Byte
  | .data bs => bs
  | .error _ => []

/-- `/dev/fibers` as its reader sees it, every `copy_to_user` succeeding. -/
def deviceRead (mem : List Byte) (len off : ℕ) : List Byte × ℕ :=
  ((fibersRead mem true len off).1.bytes, (fibersRead mem true len off).2)

/-- Of the reads after the first, none that starts inside a text of `size` bytes
    goes past its end. -/
def NoneCrosses (size : ℕ) (lens : List ℕ) : Prop :=
  ∀ n, 0 < n → (lens.take n).sum < size → (lens.take (n + 1)).sum ≤ size

section

variable {msg rest : List Byte} {len off : ℕ} {lens : List ℕ}

theorem deviceRead_of_le (hmsg : ∀ b ∈ msg, b ≠ 0) (hlen : msg.length < messageMaxLen)
    (h : msg.length ≤ off) : deviceRead (msg ++ 0 :: rest) len off = ([], off) := by
  unfold deviceRead fibersRead
  rw [strnlen_append_nul hmsg hlen, if_pos h]
  rfl

theorem deviceRead_of_lt (hmsg : ∀ b ∈ msg, b ≠ 0) (hlen : msg.length < messageMaxLen)
    (h : off < msg.length) : deviceRead (msg ++ 0 :: rest) len off =
      (((msg ++ 0 :: rest).drop off).take (min len msg.length), off + min len msg.length) := by
  unfold deviceRead fibersRead
  rw [strnlen_append_nul hmsg hlen, if_neg (by omega)]
  rfl

/-- A read that stays within the message is the one it is owed. -/
theorem deviceRead_eq_readAt (rest : List Byte) (len : ℕ) (hmsg : ∀ b ∈ msg, b ≠ 0)
    (hlen : msg.length < messageMaxLen) (h : off < msg.length)
    (hin : off + min len msg.length ≤ msg.length) :
    deviceRead (msg ++ 0 :: rest) len off = readAt msg len off := by
  have hcount : min len msg.length = min len (msg.length - off) := by omega
  have htake : ((msg ++ 0 :: rest).drop off).take (min len msg.length) =
      (msg.drop off).take len := by
    rw [List.drop_append_of_le_length h.le, hcount, List.take_append_of_le_length (by simp),
      List.take_eq_take_iff, List.length_drop]
    omega
  rw [deviceRead_of_lt hmsg hlen h, htake, hcount]
  rfl

/-- From inside the message on, reads return what is left exactly if none of them
    goes past the end. -/
theorem device_reads_from (hmsg : ∀ b ∈ msg, b ≠ 0) (hlen : msg.length < messageMaxLen)
    (hpos : ∀ len ∈ lens, 0 < len) (hoff : 0 < off) (hle : off ≤ msg.length) :
    ReadsText (deviceRead (msg ++ 0 :: rest)) msg lens off ↔
      ∀ n, off + (lens.take n).sum < msg.length → off + (lens.take (n + 1)).sum ≤ msg.length := by
  induction lens generalizing off with
  | nil =>
    constructor
    · intro _ n hn
      simpa using hle
    · intro _
      exact .nil hle
  | cons len lens ih =>
    have hlen0 := hpos len List.mem_cons_self
    have hpos' : ∀ n ∈ lens, 0 < n := fun n hn => hpos n (List.mem_cons_of_mem len hn)
    rcases hle.eq_or_lt with rfl | hlt
    · constructor
      · intro _ n hn
        omega
      · intro _
        exact (Agrees.of_end fun n => deviceRead_of_le hmsg hlen le_rfl).readsText hpos le_rfl
    · constructor
      · intro h n hn
        have hin : off + min len msg.length ≤ msg.length := by
          have hnext := h.offset_le
          rwa [deviceRead_of_lt hmsg hlen hlt] at hnext
        have hread := deviceRead_eq_readAt rest len hmsg hlen hlt hin
        have hnext : (readAt msg len off).2 = off + len := by
          show off + min len (msg.length - off) = off + len
          omega
        have htail := h.tail hread hlen0 hlt
        rw [hnext, ih hpos' (by omega) (by omega)] at htail
        cases n with
        | zero => simpa using (by omega : off + len ≤ msg.length)
        | succ n =>
          simp only [List.take_succ_cons, List.sum_cons] at hn ⊢
          have hrest := htail n (by omega)
          omega
      · intro h
        have hin : off + len ≤ msg.length := by simpa using h 0 (by simpa using hlt)
        have hread := deviceRead_eq_readAt rest len hmsg hlen hlt (by omega)
        refine .cons hlen0 hle hread ?_
        have hnext : (readAt msg len off).2 = off + len := by
          show off + min len (msg.length - off) = off + len
          omega
        rw [hnext, ih hpos' (by omega) hin]
        intro n hn
        have hrest := h (n + 1)
        simp only [List.take_succ_cons, List.sum_cons] at hrest
        omega

/-- Reading `/dev/fibers` in pieces yields the message and nothing from outside it
    exactly if no read after the first goes past its end. -/
theorem device_reads_iff (hmsg : ∀ b ∈ msg, b ≠ 0) (hlen : msg.length < messageMaxLen)
    (hpos : ∀ len ∈ lens, 0 < len) :
    ReadsText (deviceRead (msg ++ 0 :: rest)) msg lens 0 ↔ NoneCrosses msg.length lens := by
  cases lens with
  | nil =>
    constructor
    · intro _ n _ _
      simp
    · intro _
      exact .nil (Nat.zero_le _)
  | cons len lens =>
    have hlen0 := hpos len List.mem_cons_self
    have hpos' : ∀ n ∈ lens, 0 < n := fun n hn => hpos n (List.mem_cons_of_mem len hn)
    rcases Nat.eq_zero_or_pos msg.length with hzero | hlt
    · constructor
      · intro _ n _ hn
        omega
      · intro _
        rw [← hzero]
        exact (Agrees.of_end fun n => deviceRead_of_le hmsg hlen le_rfl).readsText hpos le_rfl
    -- the first read starts at the beginning and is right whatever it asks for
    have hread := deviceRead_eq_readAt rest len hmsg hlen hlt (by omega)
    have hfirst : ReadsText (deviceRead (msg ++ 0 :: rest)) msg (len :: lens) 0 ↔
        ReadsText (deviceRead (msg ++ 0 :: rest)) msg lens (min len msg.length) := by
      have hnext : (readAt msg len 0).2 = min len msg.length := by simp [readAt]
      rw [← hnext]
      exact ⟨fun h => h.tail hread hlen0 hlt, fun h => .cons hlen0 (Nat.zero_le _) hread h⟩
    rw [hfirst, device_reads_from hmsg hlen hpos' (by omega) (by omega)]
    constructor
    · intro h n hn hsum
      obtain ⟨m, rfl⟩ : ∃ m, n = m + 1 := ⟨n - 1, by omega⟩
      simp only [List.take_succ_cons, List.sum_cons] at hsum ⊢
      have hrest := h m (by omega)
      omega
    · intro h n hsum
      have hrest := h (n + 1) (by omega)
      simp only [List.take_succ_cons, List.sum_cons] at hrest
      omega

end

/-- The message of major number 240 read as 10 bytes, the other 32, and the end. -/
theorem device_reads_240 :
    ReadsText (deviceRead (publishIoctlMessage (.linux 240))) (ioctlText (.linux 240))
      [10, 32, 256] 0 := by
  have hpublish : publishIoctlMessage (.linux 240) =
      ioctlText (.linux 240) ++ 0 :: List.replicate 213 0 := by decide +kernel
  have hlen : (ioctlText (.linux 240)).length = 42 := by decide
  rw [hpublish]
  refine (device_reads_iff (by decide) (by decide) (by decide)).mpr ?_
  rw [hlen]
  intro n hn hsum
  have hle : n = 1 ∨ n = 2 ∨ 3 ≤ n := by omega
  rcases hle with rfl | rfl | h3
  · decide
  · exact absurd hsum (by decide)
  · obtain ⟨m, rfl⟩ := Nat.exists_eq_add_of_le' h3
    simp at hsum

/-- One byte of it and then 42: the second read copies one byte from behind it. -/
theorem device_reads_past_end :
    ¬ ReadsText (deviceRead (publishIoctlMessage (.linux 240))) (ioctlText (.linux 240))
      [1, 42] 0 := by
  intro h
  exact absurd (h.offset [1, 42] [] rfl) (by decide +kernel)

/-! ## Interrupted reads -/

/-- `EINTR` -/
abbrev eIntr : ℤ := 4

/-- The outcomes of the `read` calls of `fiberlib_init`, one after the other. -/
def nextOutcome (_len : ℕ) : List ReadResult → ReadResult × List ReadResult
  | [] => (.data [], [])
  | r :: rs => (r, rs)

/-- An outcome before the end of the message: a piece of it or an interruption. -/
def ReadResult.midway (r : ReadResult) : Prop := r = .error eIntr ∨ ∃ bs, bs ≠ [] ∧ r = .data bs

/-- The outcomes deliver `text` in pieces, with interruptions anywhere, and then its
    end. -/
def Delivers (text : List Byte) (outcomes : List ReadResult) : Prop :=
  ∃ init, outcomes = init ++ [.data []] ∧ (∀ r ∈ init, r.midway) ∧
    init.flatMap ReadResult.bytes = text

section

variable {text mem pre bs : List Byte} {init outcomes : List ReadResult} {fuel : ℕ}

/-- A piece lands behind the bytes read before. -/
theorem writeAt_behind : writeAt (pre ++ mem.drop pre.length) pre.length bs =
    (pre ++ bs) ++ mem.drop (pre ++ bs).length := by
  unfold writeAt
  rw [List.take_left, List.drop_append, List.drop_of_length_le (by omega), List.length_append,
    Nat.add_sub_cancel_left, List.drop_drop, List.nil_append]

/-- Without an interruption the loop ends with all pieces in the buffer. -/
theorem readMessage_uninterrupted (pre mem : List Byte) (hmid : ∀ r ∈ init, r.midway)
    (hno : .error eIntr ∉ init) (hfuel : init.length < fuel) :
    readMessage nextOutcome fuel (pre ++ mem.drop pre.length) pre.length (init ++ [.data []]) =
      some (some ((pre ++ init.flatMap ReadResult.bytes) ++
        mem.drop (pre ++ init.flatMap ReadResult.bytes).length)) := by
  induction init generalizing pre fuel with
  | nil =>
    obtain ⟨n, rfl⟩ : ∃ n, fuel = n + 1 := ⟨fuel - 1, by simp at hfuel; omega⟩
    simp [readMessage, nextOutcome]
  | cons r init ih =>
    obtain ⟨n, rfl⟩ : ∃ n, fuel = n + 1 := ⟨fuel - 1, by simp at hfuel; omega⟩
    rcases hmid r List.mem_cons_self with rfl | ⟨bs, hbs, rfl⟩
    · exact absurd List.mem_cons_self hno
    · have hrest := ih (pre ++ bs) (fun r hr => hmid r (List.mem_cons_of_mem _ hr))
        (fun hm => hno (List.mem_cons_of_mem _ hm)) (by simpa using hfuel)
      rw [List.flatMap_cons, ← List.append_assoc]
      refine Eq.trans ?_ hrest
      rw [List.cons_append, readMessage]
      simp only [nextOutcome, hbs, if_false, writeAt_behind, List.length_append]

/-- At an interruption the loop gives up. -/
theorem readMessage_interrupted (hmid : ∀ r ∈ init, r.midway) (hint : .error eIntr ∈ init)
    (hfuel : init.length < fuel) {pos : ℕ} :
    readMessage nextOutcome fuel mem pos (init ++ [.data []]) = some none := by
  induction init generalizing mem pos fuel with
  | nil => exact absurd hint List.not_mem_nil
  | cons r init ih =>
    obtain ⟨n, rfl⟩ : ∃ n, fuel = n + 1 := ⟨fuel - 1, by simp at hfuel; omega⟩
    rcases hmid r List.mem_cons_self with rfl | ⟨bs, hbs, rfl⟩
    · -- the test is `errno == -EINTR`
      rw [List.cons_append, readMessage]
      simp [nextOutcome]
    · have hint' : .error eIntr ∈ init := by simpa using hint
      rw [List.cons_append, readMessage]
      simp only [nextOutcome, hbs, if_false]
      exact ih (fun r hr => hmid r (List.mem_cons_of_mem _ hr)) hint' (by simpa using hfuel)

/-- `fiberlib_init` ends, and it has initialised the library with the numbers of an
    uninterrupted read exactly if no read was interrupted. -/
theorem interrupted_init_iff (hne : text ≠ []) (hdel : Delivers text outcomes)
    (hfuel : outcomes.length ≤ fuel) (mem : List Byte) : ∃ lib whole,
    fiberlibInit nextOutcome fuel mem outcomes = some lib ∧
    fiberlibInit nextOutcome 2 mem [.data text, .data []] = some whole ∧
    (lib.initialized = true ∧ lib.ioctlNumbers = whole.ioctlNumbers ↔
      .error eIntr ∉ outcomes) := by
  obtain ⟨init, rfl, hmid, rfl⟩ := hdel
  set text := init.flatMap ReadResult.bytes with htext
  have hlen : init.length < fuel := by simpa using hfuel
  have hmem : ReadResult.error eIntr ∈ init ++ [.data []] ↔ .error eIntr ∈ init := by simp
  -- the message in one piece
  have hone : readMessage nextOutcome 2 mem 0 [.data text, .data []] =
      some (some (text ++ mem.drop text.length)) := by
    have hmid' : ∀ r ∈ [ReadResult.data text], r.midway := by
      simpa [ReadResult.midway] using hne
    simpa [ReadResult.bytes] using
      readMessage_uninterrupted [] mem hmid' (by simp) (show 1 < 2 by omega)
  obtain ⟨whole, hwhole⟩ : ∃ whole,
      fiberlibInit nextOutcome 2 mem [.data text, .data []] = some whole := by
    unfold fiberlibInit
    rw [hone]
    exact ⟨_, rfl⟩
  rw [hmem]
  by_cases hint : .error eIntr ∈ init
  · refine ⟨⟨false, fun _ => 0⟩, whole, ?_, hwhole, ?_⟩
    · unfold fiberlibInit
      rw [readMessage_interrupted hmid hint hlen]
      rfl
    · simp [hint]
  · have hpieces : readMessage nextOutcome fuel mem 0 (init ++ [.data []]) =
        some (some (text ++ mem.drop text.length)) :=
      readMessage_uninterrupted [] mem hmid hint hlen
    refine ⟨whole, whole, ?_, hwhole, ?_⟩
    · rw [← hwhole]
      unfold fiberlibInit
      rw [hpieces, hone]
    · have hdone : whole.initialized = true := by
        unfold fiberlibInit at hwhole
        rw [hone] at hwhole
        obtain rfl := Option.some.inj hwhole
        rfl
      simp [hint, hdone]

end

/-- The message of major number 240 in two pieces. -/
theorem interrupted_init_240 : ∃ lib whole,
    fiberlibInit nextOutcome 3 (List.replicate 256 49) [.data ((ioctlText (.linux 240)).take 10),
      .data ((ioctlText (.linux 240)).drop 10), .data []] = some lib ∧
    fiberlibInit nextOutcome 2 (List.replicate 256 49) [.data (ioctlText (.linux 240)), .data []] =
      some whole ∧ lib.initialized = true ∧ lib.ioctlNumbers = whole.ioctlNumbers := by
  have htake : (ioctlText (.linux 240)).take 10 ≠ [] := by decide
  have hdrop : (ioctlText (.linux 240)).drop 10 ≠ [] := by decide
  have hdel : Delivers (ioctlText (.linux 240)) [.data ((ioctlText (.linux 240)).take 10),
      .data ((ioctlText (.linux 240)).drop 10), .data []] := by
    refine ⟨[.data _, .data _], rfl, ?_, ?_⟩
    · intro r hr
      rcases List.mem_cons.mp hr with rfl | hr
      · exact .inr ⟨_, htake, rfl⟩
      · obtain rfl := List.mem_singleton.mp hr
        exact .inr ⟨_, hdrop, rfl⟩
    · simp [ReadResult.bytes]
  obtain ⟨lib, whole, hlib, hwhole, hiff⟩ :=
    interrupted_init_iff (by decide) hdel (show 3 ≤ 3 by omega) (List.replicate 256 49)
  exact ⟨lib, whole, hlib, hwhole, hiff.mpr (by simp)⟩

/-- An interruption before the message arrives: the library is not initialised. -/
theorem interrupted_init_fails :
    Delivers (ioctlText (.linux 240))
      [.error eIntr, .data (ioctlText (.linux 240)), .data []] ∧
    ∃ lib, fiberlibInit nextOutcome 3 (List.replicate 256 49)
      [.error eIntr, .data (ioctlText (.linux 240)), .data []] = some lib ∧
      lib.initialized = false := by
  have hne : ioctlText (.linux 240) ≠ [] := by decide
  refine ⟨⟨[.error eIntr, .data _], rfl, ?_, ?_⟩, _, rfl, rfl⟩
  · simpa [ReadResult.midway] using hne
  · simp [ReadResult.bytes]

end AosvFibers
