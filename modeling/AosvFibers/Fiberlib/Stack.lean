import AosvFibers.Fiberlib.Wrappers

/-!
# The stack a created fiber starts on

`CreateFiber` gets a block from `posix_memalign`, aligned to 16, and the fiber's first
`sp` is the end of the block less 8. That is a place on the block, aligned as the
System V ABI wants it at the first instruction of a function, only if the size is a
multiple of 16 and not 0. The size is passed on as it is.

Result: `stack_start_iff`.
-/

namespace AosvFibers

open Lib LibraryCall

variable {E : Env} {cur : Task} {k k' : Kernel} {lib : Fiberlib} {o : Outside} {res : ℤ}
  {base size fn params : Word} {f : Ptr} {r : Fiber}

/-- The fiber's `sp` is on the block, with room for a word behind it, and 8 modulo 16. -/
structure Fiber.StartsOn (r : Fiber) (base size : Word) : Prop where
  above : base.toNat ≤ r.registers.sp.toNat
  below : r.registers.sp.toNat + 8 ≤ base.toNat + size.toNat
  aligned : r.registers.sp.toNat % 16 = 8

/-- The end of an aligned block less 8. -/
theorem blockEnd_iff (hbase : base.toNat % 16 = 0) (hfits : base.toNat + size.toNat ≤ 2 ^ 64) :
    (base.toNat ≤ (base + size - 8).toNat ∧
      (base + size - 8).toNat + 8 ≤ base.toNat + size.toNat ∧ (base + size - 8).toNat % 16 = 8) ↔
    0 < size.toNat ∧ size.toNat % 16 = 0 := by
  have hlt := (base + size - 8).isLt
  have hval : (base + size - 8).toNat = (base.toNat + size.toNat + (2 ^ 64 - 8)) % 2 ^ 64 := by
    rw [BitVec.toNat_sub, BitVec.toNat_add]
    show (2 ^ 64 - 8 + (base.toNat + size.toNat) % 2 ^ 64) % 2 ^ 64 = _
    omega
  omega

/-- `init_fiber` on a size from user space: the test for the default never fails. -/
theorem createdFiber_sp (E : Env) (cur : Task) (f : Ptr) (cpu : Cpu) (parent : Ptr)
    (stackPointer stackSize fiberFunction parameters : Word) (id : PidT) :
    (createdFiber E cur f cpu parent stackPointer stackSize fiberFunction parameters
      id).registers.sp = stackPointer + stackSize - 8 := by
  have hsize : (if (stackSize.toNat : ℤ) ≥ 0 then BitVec.ofInt 64 stackSize.toNat
      else defaultStackSize) = stackSize := by
    rw [if_pos (Int.natCast_nonneg _), BitVec.ofInt_natCast, BitVec.ofNat_toNat,
      BitVec.setWidth_eq]
  show stackPointer + (if (stackSize.toNat : ℤ) ≥ 0 then BitVec.ofInt 64 stackSize.toNat
      else defaultStackSize) - 8 = _
  rw [hsize]

/-- The fiber a call to `do_CreateFiber` leaves, if it leaves a new one. -/
theorem Outcome.created_sp (h : Outcome E k (.call cur (.create base size fn params)) res k')
    (hnew : k.fiber f = none) (hf : k'.fiber f = some r) : r.registers.sp = base + size - 8 := by
  cases h with
  | refused =>
    rw [hnew] at hf
    cases hf
  | @created _ ep tp g p t rg _ _ _ _ hr =>
    have hat : k.created E cur ep p base size fn params = k.withFiber E cur ep p
        (createdFiber E cur (k.nextPtr cur.tgid) (k.cpu cur) ep base size fn params p.nextId) := rfl
    by_cases hfn : f = k.nextPtr cur.tgid
    · subst hfn
      rw [hat, Kernel.withFiber] at hf
      obtain rfl : _ = r := by simpa using hf
      exact createdFiber_sp E cur _ _ _ base size fn params _
    · rw [hat, Kernel.withFiber] at hf
      simp [hfn, hnew] at hf
  | fls _ hfls => simp [Call.isFls] at hfls

/-- The fiber `CreateFiber` leaves, if it leaves a new one. -/
theorem sp_of_CreateFiber (hk : Inv E k) (hmajor : E.major.toNat < 2 ^ 24) (hlib : lib.SpeaksTo E)
    (hrun : (CreateFiber fn size params base).run E lib cur o k = some (res, k'))
    (hnew : k.fiber f = none) (hf : k'.fiber f = some r) :
    r.registers.sp = base + size - 8 := by
  have hne : k' ≠ k := by
    rintro rfl
    rw [hnew] at hf
    cases hf
  cases hmem : o.memalign with
  | false =>
    rw [run_CreateFiber_noMemory hmem] at hrun
    exact absurd (Prod.mk.inj (Option.some.inj hrun)).2.symm hne
  | true =>
    obtain ⟨n, w, k₁, hioctl, hgoes⟩ :=
      exists_goes hk hmajor hlib cur o (CreateFiber fn size params base)
    rw [run_CreateFiber hmem hioctl] at hrun
    obtain ⟨-, rfl⟩ := Prod.mk.inj (Option.some.inj hrun)
    cases hgoes with
    | reached h hout => exact hout.created_sp hnew hf
    | stopped h hn hw hk' => exact absurd hk' hne

/-- The fiber `CreateFiber` makes on an aligned block starts on the block just if the
    block's size is a positive multiple of 16. -/
theorem stack_start_iff (hk : Reachable E k) (hmajor : E.major.toNat < 2 ^ 24)
    (hlib : lib.SpeaksTo E) (hbase : base.toNat % 16 = 0)
    (hfits : base.toNat + size.toNat ≤ 2 ^ 64)
    (hrun : (CreateFiber fn size params base).run E lib cur o k = some (res, k'))
    (hnew : k.fiber f = none) (hf : k'.fiber f = some r) :
    r.StartsOn base size ↔ 0 < size.toNat ∧ size.toNat % 16 = 0 := by
  have hsp := sp_of_CreateFiber hk.inv hmajor hlib hrun hnew hf
  rw [← blockEnd_iff hbase hfits, ← hsp]
  exact ⟨fun h => ⟨h.above, h.below, h.aligned⟩, fun h => ⟨h.1, h.2.1, h.2.2⟩⟩

/-- The first fiber created by a thread just converted. -/
theorem exists_CreateFiber (E : Env) (cur : Task) (hmajor : E.major.toNat < 2 ^ 24)
    (fn size params base : Word) : ∃ lib o k res k' f r, Reachable E k ∧
      Fiberlib.SpeaksTo lib E ∧
      (CreateFiber fn size params base).run E lib cur o k = some (res, k') ∧
      k.fiber f = none ∧ k'.fiber f = some r := by
  set lib : Fiberlib := ⟨true, fun nr => ioctlCmd E (BitVec.ofNat 64 nr)⟩
  set o : Outside := ⟨true, none, true, true, true⟩
  have hreach := Reachable.firstConverted E cur fun _ => .zero
  have hcaller := firstConverted_caller E cur fun _ => .zero
  have hreaches : (CreateFiber fn size params base).Reaches E lib o :=
    ⟨rfl, rfl, fun _ => ⟨rfl, rfl⟩⟩
  obtain ⟨w, hioctl⟩ := ioctl_of_reaches hmajor hreaches
    (doCreateFiber_eq hcaller base size fn params)
  refine ⟨lib, o, _, _, _, _, _, hreach, .of_handshake fun _ _ => rfl, run_CreateFiber rfl hioctl,
    hreach.inv.fresh_fiber_none le_rfl, Function.update_self _ _ _⟩

/-- A block of 4096 bytes. -/
theorem stack_start_4096 : ∃ lib o k res k' f r, Reachable (.linux 240) k ∧
    (CreateFiber 17 4096 5 65536).run (.linux 240) lib ⟨7, 7⟩ o k = some (res, k') ∧
    k.fiber f = none ∧ k'.fiber f = some r ∧ r.StartsOn 65536 4096 := by
  obtain ⟨lib, o, k, res, k', f, r, hreach, hlib, hrun, hnew, hf⟩ :=
    exists_CreateFiber (.linux 240) ⟨7, 7⟩ (by decide) 17 4096 5 65536
  have hiff := stack_start_iff hreach (by decide) hlib (by decide) (by decide) hrun hnew hf
  exact ⟨lib, o, k, res, k', f, r, hreach, hrun, hnew, hf, hiff.mpr (by decide)⟩

/-- A block of 6 bytes: the fiber starts in front of it. -/
theorem stack_start_6 : ∃ lib o k res k' f r, Reachable (.linux 240) k ∧
    Fiberlib.SpeaksTo lib (.linux 240) ∧
    (CreateFiber 17 6 5 65536).run (.linux 240) lib ⟨7, 7⟩ o k = some (res, k') ∧
    k.fiber f = none ∧ k'.fiber f = some r ∧ ¬ r.StartsOn 65536 6 := by
  obtain ⟨lib, o, k, res, k', f, r, hreach, hlib, hrun, hnew, hf⟩ :=
    exists_CreateFiber (.linux 240) ⟨7, 7⟩ (by decide) 17 6 5 65536
  refine ⟨lib, o, k, res, k', f, r, hreach, hlib, hrun, hnew, hf, ?_⟩
  intro h
  have habove := h.above
  rw [sp_of_CreateFiber hreach.inv (by decide) hlib hrun hnew hf] at habove
  exact absurd habove (by decide)

end AosvFibers
