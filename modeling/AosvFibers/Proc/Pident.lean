import AosvFibers.Lib.Paging
import AosvFibers.Model.Types

/-!
# Reading a `/proc` directory

The kernel lists the directories under `/proc/<pid>` and looks up names in them
with `proc_pident_readdir` and `proc_pident_lookup`, both given an array of
`struct pid_entry` and its length. The module calls the two on arrays of its
own, so what they do with an arbitrary array, also one with a shifted base
pointer, decides what its directories show.

* Memory that holds `struct pid_entry` elements is `mem : ℤ → String`, the name
  found in the element at each index; an array pointer is an index into it.
* A reader's buffer has room for records of `reclen name` bytes (`direntLen` for
  `getdents64`). An entry whose record does not fit is not emitted and the
  listing stops there.
* Both functions also return the indices of the elements they read.

`procPidentReaddir_fst` says what one call emits: the page of the listing
`.`, `..`, `ents[0]`, ..., `ents[n - 1]` that starts at `ctx->pos`.
-/

namespace AosvFibers

open Lib

/-- `struct dir_context` with the reader's buffer: the position in the
    directory, the room left, the names emitted so far, and whether an entry was
    turned away because it did not fit. -/
structure DirContext where
  pos : ℕ
  room : ℕ
  out : List String
  full : Bool
  deriving DecidableEq

/-- The size of a `struct linux_dirent64` for a name. -/
def direntLen (name : String) : ℕ := (19 + name.utf8ByteSize + 1 + 7) / 8 * 8

variable (reclen : String → ℕ)

namespace DirContext

variable (ctx : DirContext)

/-- `dir_emit`: put one entry into the reader's buffer, if it fits. -/
def dirEmit (name : String) : Bool × DirContext :=
  if reclen name ≤ ctx.room then
    (true, { ctx with room := ctx.room - reclen name, out := ctx.out ++ [name] })
  else (false, { ctx with full := true })

/-- `dir_emit_dots`: `.` at position 0 and `..` at position 1. -/
def dirEmitDots : Bool × DirContext :=
  let (dot, ctx) :=
    if ctx.pos = 0 then
      let (ok, ctx) := ctx.dirEmit reclen "."
      (ok, if ok then { ctx with pos := 1 } else ctx)
    else (true, ctx)
  if dot then
    if ctx.pos = 1 then
      let (ok, ctx) := ctx.dirEmit reclen ".."
      (ok, if ok then { ctx with pos := 2 } else ctx)
    else (true, ctx)
  else (false, ctx)

end DirContext

/-- The loop of `proc_pident_readdir` over `n` more elements from `p` on, with
    the indices of the elements read. -/
def emitEntries (mem : ℤ → String) : ℕ → ℤ → DirContext → DirContext × List ℤ
  | 0, _, ctx => (ctx, [])
  | n + 1, p, ctx =>
    match ctx.dirEmit reclen (mem p) with
    | (false, ctx) => (ctx, [p])
    | (true, ctx) =>
      let (ctx, reads) := emitEntries mem n (p + 1) { ctx with pos := ctx.pos + 1 }
      (ctx, p :: reads)

/-- `proc_pident_readdir(file, ctx, ents, nents)`. The sum `nents + 2` is an
    `unsigned int`. -/
def procPidentReaddir (mem : ℤ → String) (ents : ℤ) (nents : BitVec 32) (ctx : DirContext) :
    DirContext × List ℤ :=
  let (ok, ctx) := ctx.dirEmitDots reclen
  if !ok then (ctx, [])
  else if (nents + 2).toNat ≤ ctx.pos then (ctx, [])
  else emitEntries reclen mem (nents.toNat - (ctx.pos - 2)) (ents + (ctx.pos - 2 : ℕ)) ctx

/-- The loop of `proc_pident_lookup` over `n` more elements from `p` on: the
    element whose name is looked up, if there is one, and the elements read. -/
def lookupEntries (mem : ℤ → String) (name : String) : ℕ → ℤ → Option ℤ × List ℤ
  | 0, _ => (none, [])
  | n + 1, p =>
    if mem p = name then (some p, [p])
    else
      let (found, reads) := lookupEntries mem name n (p + 1)
      (found, p :: reads)

/-- `proc_pident_lookup(dir, dentry, ents, nents)`: the element the dentry is
    instantiated with. -/
def procPidentLookup (mem : ℤ → String) (ents : ℤ) (nents : BitVec 32) (name : String) :
    Option ℤ × List ℤ := lookupEntries mem name nents.toNat ents

/-! ## The page a call emits -/

/-- The reader's buffer after the entries of `l` that fit were emitted. -/
def DirContext.page (ctx : DirContext) (l : List String) : DirContext where
  pos := ctx.pos + (takeFits reclen ctx.room l).length
  room := ctx.room - totalCost reclen (takeFits reclen ctx.room l)
  out := ctx.out ++ takeFits reclen ctx.room l
  full := ctx.full || decide (ctx.room < totalCost reclen l)

variable {reclen} {ctx : DirContext} {mem : ℤ → String} {name : String} {l : List String}

namespace DirContext

theorem dirEmit_of_le (h : reclen name ≤ ctx.room) : ctx.dirEmit reclen name =
    (true, { ctx with room := ctx.room - reclen name, out := ctx.out ++ [name] }) := by
  rw [dirEmit, if_pos h]

theorem dirEmit_of_lt (h : ctx.room < reclen name) :
    ctx.dirEmit reclen name = (false, { ctx with full := true }) := by
  rw [dirEmit, if_neg (by omega)]

@[simp] theorem page_nil : ctx.page reclen [] = ctx := by simp [page]

theorem page_cons_of_le (h : reclen name ≤ ctx.room) : ctx.page reclen (name :: l) =
    (DirContext.mk (ctx.pos + 1) (ctx.room - reclen name) (ctx.out ++ [name]) ctx.full).page
      reclen l := by
  have hfull : ctx.room < reclen name + totalCost reclen l ↔
      ctx.room - reclen name < totalCost reclen l := by omega
  simp only [page, takeFits_cons_of_le h, List.length_cons, totalCost_cons, List.append_assoc,
    List.singleton_append, hfull]
  congr 1
  · omega
  · omega

theorem page_cons_of_lt (h : ctx.room < reclen name) :
    ctx.page reclen (name :: l) = { ctx with full := true } := by
  have hfull : ctx.room < reclen name + totalCost reclen l := by omega
  simp [page, takeFits_cons_of_lt h, hfull]

end DirContext

/-- The names in the `n` elements from `ents` on. -/
def entryNames (mem : ℤ → String) (ents : ℤ) (n : ℕ) : List String :=
  (List.range n).map fun i : ℕ => mem (ents + i)

@[simp] theorem length_entryNames (ents : ℤ) (n : ℕ) : (entryNames mem ents n).length = n := by
  simp [entryNames]

theorem entryNames_succ (ents : ℤ) (n : ℕ) :
    entryNames mem ents (n + 1) = mem ents :: entryNames mem (ents + 1) n := by
  unfold entryNames
  rw [List.range_succ_eq_map, List.map_cons, List.map_map]
  simp only [Function.comp_def, Nat.cast_zero, add_zero, Nat.cast_succ]
  congr 2
  funext i
  ring_nf

theorem drop_entryNames (ents : ℤ) (n i : ℕ) :
    (entryNames mem ents n).drop i = entryNames mem (ents + i) (n - i) := by
  apply List.ext_getElem
  · simp
  · intro j _ _
    simp [entryNames, add_assoc]

theorem emitEntries_fst (n : ℕ) (p : ℤ) :
    (emitEntries reclen mem n p ctx).1 = ctx.page reclen (entryNames mem p n) := by
  induction n generalizing p ctx with
  | zero => simp [emitEntries, entryNames]
  | succ n ih =>
    rw [entryNames_succ, emitEntries]
    by_cases h : reclen (mem p) ≤ ctx.room
    · rw [DirContext.dirEmit_of_le h, DirContext.page_cons_of_le h, ← ih]
    · rw [DirContext.dirEmit_of_lt (by omega), DirContext.page_cons_of_lt (by omega)]

theorem emitEntries_one (p : ℤ) :
    emitEntries reclen mem 1 p ctx = (ctx.page reclen [mem p], [p]) := by
  have hnames : entryNames mem p 1 = [mem p] := by simp [entryNames]
  apply Prod.ext
  · rw [emitEntries_fst, hnames]
  · rw [emitEntries]
    by_cases h : reclen (mem p) ≤ ctx.room
    · rw [DirContext.dirEmit_of_le h]
      rfl
    · rw [DirContext.dirEmit_of_lt (by omega)]

/-- The listing of a directory whose array holds `names`. -/
def dirListing (names : List String) : List String := "." :: ".." :: names

@[simp] theorem length_dirListing (names : List String) :
    (dirListing names).length = names.length + 2 := rfl

section

variable {ents : ℤ} {nents : BitVec 32}

/-- Past the dots, a call emits elements from index `ctx->pos - 2` on. -/
theorem procPidentReaddir_of_two_le (hpos : 2 ≤ ctx.pos) (hn : nents.toNat + 2 < 2 ^ 32) :
    procPidentReaddir reclen mem ents nents ctx =
      if nents.toNat + 2 ≤ ctx.pos then (ctx, [])
      else emitEntries reclen mem (nents.toNat - (ctx.pos - 2)) (ents + (ctx.pos - 2 : ℕ)) ctx := by
  have hadd : (nents + 2).toNat = nents.toNat + 2 := by
    rw [BitVec.toNat_add]
    show (nents.toNat + 2) % 2 ^ 32 = _
    omega
  have hdots : ctx.dirEmitDots reclen = (true, ctx) := by
    unfold DirContext.dirEmitDots
    rw [if_neg (by omega)]
    show (if ctx.pos = 1 then _ else _) = _
    rw [if_neg (by omega)]
  simp only [procPidentReaddir, hdots, hadd, Bool.not_true, Bool.false_eq_true, if_false]

/-- A dot that does not fit ends the call before any element is read. -/
theorem procPidentReaddir_dot_of_lt (hpos : ctx.pos < 2)
    (h : ctx.room < reclen (if ctx.pos = 0 then "." else "..")) :
    procPidentReaddir reclen mem ents nents ctx = ({ ctx with full := true }, []) := by
  have hdots : ctx.dirEmitDots reclen = (false, { ctx with full := true }) := by
    unfold DirContext.dirEmitDots
    by_cases h0 : ctx.pos = 0
    · rw [if_pos h0] at h
      rw [if_pos h0, DirContext.dirEmit_of_lt h]
      rfl
    · have h1 : ctx.pos = 1 := by omega
      rw [if_neg h0] at h
      simp [h1, DirContext.dirEmit_of_lt h]
  simp only [procPidentReaddir, hdots, Bool.not_false, if_true]

/-- After a dot that fits, the call goes on at the next position. -/
theorem procPidentReaddir_dot_of_le (hpos : ctx.pos < 2)
    (h : reclen (if ctx.pos = 0 then "." else "..") ≤ ctx.room) :
    procPidentReaddir reclen mem ents nents ctx = procPidentReaddir reclen mem ents nents
      ⟨ctx.pos + 1, ctx.room - reclen (if ctx.pos = 0 then "." else ".."),
        ctx.out ++ [if ctx.pos = 0 then "." else ".."], ctx.full⟩ := by
  have hdots : ctx.dirEmitDots reclen = DirContext.dirEmitDots reclen
      ⟨ctx.pos + 1, ctx.room - reclen (if ctx.pos = 0 then "." else ".."),
        ctx.out ++ [if ctx.pos = 0 then "." else ".."], ctx.full⟩ := by
    unfold DirContext.dirEmitDots
    by_cases h0 : ctx.pos = 0
    · rw [if_pos h0] at h
      simp [h0, DirContext.dirEmit_of_le h]
    · have h1 : ctx.pos = 1 := by omega
      rw [if_neg h0] at h
      simp [h1, DirContext.dirEmit_of_le h]
  simp only [procPidentReaddir, hdots]

/-- One call emits the page of the listing that starts at `ctx->pos`. -/
theorem procPidentReaddir_fst (hn : nents.toNat + 2 < 2 ^ 32) :
    (procPidentReaddir reclen mem ents nents ctx).1 =
      ctx.page reclen ((dirListing (entryNames mem ents nents.toNat)).drop ctx.pos) := by
  -- the dots are handled one at a time, counting down to position 2
  induction hd : 2 - ctx.pos generalizing ctx with
  | zero =>
    rw [procPidentReaddir_of_two_le (by omega) hn]
    have hdrop : (dirListing (entryNames mem ents nents.toNat)).drop ctx.pos =
        entryNames mem (ents + (ctx.pos - 2 : ℕ)) (nents.toNat - (ctx.pos - 2)) := by
      rw [← drop_entryNames]
      obtain ⟨i, hi⟩ : ∃ i, ctx.pos = i + 2 := ⟨ctx.pos - 2, by omega⟩
      rw [hi]
      rfl
    rw [hdrop]
    split
    · rw [show nents.toNat - (ctx.pos - 2) = 0 by omega]
      simp [entryNames]
    · exact emitEntries_fst _ _
  | succ d ih =>
    have hpos : ctx.pos < 2 := by omega
    have hdrop : (dirListing (entryNames mem ents nents.toNat)).drop ctx.pos =
        (if ctx.pos = 0 then "." else "..") ::
          (dirListing (entryNames mem ents nents.toNat)).drop (ctx.pos + 1) := by
      obtain h0 | h1 : ctx.pos = 0 ∨ ctx.pos = 1 := by omega
      · simp [h0, dirListing]
      · simp [h1, dirListing]
    rw [hdrop]
    by_cases h : reclen (if ctx.pos = 0 then "." else "..") ≤ ctx.room
    · rw [procPidentReaddir_dot_of_le hpos h, DirContext.page_cons_of_le h]
      exact ih (by show 2 - (ctx.pos + 1) = d; omega)
    · rw [procPidentReaddir_dot_of_lt hpos (by omega), DirContext.page_cons_of_lt (by omega)]

/-- A call that cannot even emit the dots leaves nothing for a second call: that
    one reads no element and changes nothing, whatever array it is given. -/
theorem procPidentReaddir_again {mem' : ℤ → String} {ents' : ℤ} {nents' : BitVec 32}
    (h : ctx.room < totalCost reclen ((dirListing []).drop ctx.pos)) {ctx' : DirContext}
    (hctx' : (procPidentReaddir reclen mem ents nents ctx).1 = ctx') :
    procPidentReaddir reclen mem' ents' nents' ctx' = (ctx', []) ∧ ctx'.full = true := by
  induction hd : 2 - ctx.pos generalizing ctx with
  | zero =>
    obtain ⟨i, hi⟩ : ∃ i, ctx.pos = i + 2 := ⟨ctx.pos - 2, by omega⟩
    rw [hi] at h
    exact absurd h (by simp [dirListing])
  | succ d ih =>
    have hpos : ctx.pos < 2 := by omega
    by_cases hdot : reclen (if ctx.pos = 0 then "." else "..") ≤ ctx.room
    · rw [procPidentReaddir_dot_of_le hpos hdot] at hctx'
      refine ih ?_ hctx' (by show 2 - (ctx.pos + 1) = d; omega)
      obtain h0 | h1 : ctx.pos = 0 ∨ ctx.pos = 1 := by omega
      · rw [h0] at hdot
        simp only [h0, dirListing, List.drop_zero, totalCost_cons, totalCost_nil] at h
        simp only [h0, dirListing, List.drop_succ_cons, List.drop_zero, totalCost_cons,
          totalCost_nil, if_true] at hdot ⊢
        omega
      · rw [h1] at hdot h
        simp [dirListing] at hdot h
        omega
    · rw [procPidentReaddir_dot_of_lt hpos (by omega)] at hctx'
      subst hctx'
      exact ⟨procPidentReaddir_dot_of_lt hpos (by simpa using hdot), rfl⟩

end

end AosvFibers
