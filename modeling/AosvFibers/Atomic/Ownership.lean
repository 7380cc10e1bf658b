import AosvFibers.Atomic.Outcome

/-!
# Ownership over whole runs

Every step keeps the invariant, so it holds in every reachable state
(`Reachable.inv`). `ownership_invariant` reads off what it says about the four
places that record which thread runs which fiber.
-/

namespace AosvFibers

open Lib

variable {E : Env} {cur : Task} {k k' : Kernel}

theorem Inv.boot (cpu : Task → Cpu) : Inv E (Kernel.boot cpu) where
  processesWF := HashTable.WF.empty _ _
  processesInj := by intro x hx; simp [Kernel.boot] at hx
  proc := by intro x hx; simp [Kernel.boot] at hx
  freshProcess := by simp [Kernel.boot]
  freshThread := by simp [Kernel.boot]
  freshFiber := by simp [Kernel.boot]
  populated := by intro x hx; simp [Kernel.boot] at hx
  linkedProcess := by simp [Kernel.boot]
  linkedThread := by simp [Kernel.boot]

/-! ## Writes that touch no ownership field -/

/-- A write to one fiber that keeps its id, its attachment and its lock. -/
theorem Shape.writeFiber {f : Ptr} {r r' : Fiber} (h : Shape E k) (hf : k.fiber f = some r)
    (hid : r'.fiberId = r.fiberId) (hatt : r'.attachedThread = r.attachedThread)
    (hlock : r'.fiberLock = r.fiberLock) :
    Shape E { k with fiber := Function.update k.fiber f (some r') } := by
  refine ⟨h.processesWF, h.processesInj, ?_, h.freshProcess, h.freshThread, ?_⟩
  · intro pp hpp p hp
    refine (h.proc pp hpp p hp).congr (fun _ _ => rfl) ?_ ?_ ?_ <;> intro x _ <;>
      by_cases hx : x = f <;>
        simp [Kernel.fiberKey, Kernel.attached, Kernel.locked, hx, hf, hid, hatt, hlock]
  · intro x hx
    by_cases hxf : x = f
    · subst hxf; exact h.freshFiber x (by simp [hf])
    · exact h.freshFiber x (by simpa [hxf] using hx)

/-! ## New records -/

section New

variable {ep : Ptr} {p : Process}

theorem ProcOk.fresh_not_mem_threads (hok : ProcOk E k ep p) (h : Shape E k) {x : Ptr}
    (hx : k.brk x.tgid ≤ x.serial) : x ∉ p.threads := fun hm => by
  obtain ⟨r, hr⟩ := hok.thread_exists hm
  simp [h.fresh_thread_none hx] at hr

theorem ProcOk.fresh_not_mem_fibers (hok : ProcOk E k ep p) (h : Shape E k) {x : Ptr}
    (hx : k.brk x.tgid ≤ x.serial) : x ∉ p.fibers := fun hm => by
  obtain ⟨r, hr⟩ := hok.fiber_exists hm
  simp [h.fresh_fiber_none hx] at hr

/-- Addresses given out before are still below the bound after more are given out. -/
theorem lt_brk_update {g : PidT} {n : ℕ} {x : Ptr} (hx : x.serial < k.brk x.tgid) :
    x.serial < Function.update k.brk g (k.brk g + n) x.tgid := by
  by_cases hg : x.tgid = g
  · subst hg; simp; omega
  · simpa [hg] using hx

/-- A new fiber nobody holds. -/
theorem Shape.withFiber {r : Fiber} (h : Shape E k) (hmem : ep ∈ k.processes)
    (hp : k.process ep = some p) (hid : p.processId = cur.tgid) (hr : r.fiberId = p.nextId)
    (hatt : r.attachedThread = none) (hlock : r.fiberLock = false) :
    Shape E (k.withFiber E cur ep p r) := by
  have hok := h.proc ep hmem p hp
  have hnew : k.nextPtr cur.tgid ∉ p.fibers := hok.fresh_not_mem_fibers h le_rfl
  have hold : ∀ f ∈ p.fibers, (k.withFiber E cur ep p r).fiber f = k.fiber f := fun f hf => by
    have hne : f ≠ k.nextPtr cur.tgid := fun he => hnew (he ▸ hf)
    simp [Kernel.withFiber, hne]
  have hnewf : (k.withFiber E cur ep p r).fiber (k.nextPtr cur.tgid) = some r := by
    simp [Kernel.withFiber]
  have hfk : ∀ f ∈ p.fibers, (k.withFiber E cur ep p r).fiberKey f = k.fiberKey f := fun f hf => by
    simp [Kernel.fiberKey, hold f hf]
  have hatt' : ∀ f ∈ p.fibers, (k.withFiber E cur ep p r).attached f = k.attached f := fun f hf => by
    simp [Kernel.attached, hold f hf]
  refine h.of_local hmem hp rfl (q := p.withFiber E (k.nextPtr cur.tgid)) ?_ rfl ?_ (fun x _ => rfl)
    ?_ ?_ ?_ ?_ ?_
  · simp [Kernel.withFiber]
  · intro x hx; simp [Kernel.withFiber, hx]
  · intro x hx
    have hne : x ≠ k.nextPtr cur.tgid := by rintro rfl; exact hx hid.symm
    simp [Kernel.withFiber, hne]
  · refine ⟨hok.self, hok.threadsWF, hok.threadsInj, hok.threadTgid, hok.parent, ?_, ?_, ?_, ?_, ?_,
      hok.active⟩
    · exact (hok.fibersWF.congr hfk).add hnew (by simp [Kernel.fiberKey, hnewf, hr])
    · intro f hf
      rcases HashTable.mem_add.mp hf with rfl | hf
      · exact hid.symm
      · exact hok.fiberTgid f hf
    · intro t ht
      obtain ⟨f, hf, h1, h2⟩ := hok.selected t ht
      exact ⟨f, HashTable.mem_add.mpr (.inr hf), h1, by rw [hatt' f hf, h2]⟩
    · intro f hf t hta
      rcases HashTable.mem_add.mp hf with rfl | hf
      · simp [Kernel.attached, hnewf, hatt] at hta
      · exact hok.attached f hf t (by rw [← hatt' f hf, hta])
    · intro f hf
      rcases HashTable.mem_add.mp hf with rfl | hf
      · simp [Kernel.locked, Kernel.attached, hnewf, hatt, hlock]
      · rw [hatt' f hf, ← hok.locked f hf]
        simp [Kernel.locked, hold f hf]
  · intro g
    by_cases hg : g = cur.tgid <;> simp [Kernel.withFiber, hg]
  · exact fun x hx => lt_brk_update (h.freshThread x hx)
  · intro x hx
    by_cases hxn : x = k.nextPtr cur.tgid
    · subst hxn; simp [Kernel.withFiber, Kernel.nextPtr]
    · exact lt_brk_update (h.freshFiber x (by simpa [Kernel.withFiber, hxn] using hx))

/-- A new process without threads. -/
theorem Shape.withProcess (h : Shape E k) (hn : k.processOf E cur.tgid = some none) :
    Shape E (k.withProcess E cur) := by
  have hnone : k.process (k.nextPtr cur.tgid) = none := h.fresh_process_none le_rfl
  have hnew : k.nextPtr cur.tgid ∉ k.processes := fun hm => by
    obtain ⟨p, hp⟩ := h.process_exists hm
    simp [hnone] at hp
  have hold : ∀ x ∈ k.processes, (k.withProcess E cur).process x = k.process x := fun x hx => by
    have hne : x ≠ k.nextPtr cur.tgid := fun he => hnew (he ▸ hx)
    simp [Kernel.withProcess, hne]
  have hkey : ∀ x ∈ k.processes, (k.withProcess E cur).processKey x = k.processKey x :=
    fun x hx => by simp [Kernel.processKey, hold x hx]
  have hnewkey : (k.withProcess E cur).processKey (k.nextPtr cur.tgid) = some cur.tgid := by
    simp [Kernel.processKey, Kernel.withProcess]
  refine ⟨(h.processesWF.congr hkey).add hnew hnewkey, (h.processesInj.congr hkey).add hnewkey ?_,
    ?_, ?_, fun x hx => lt_brk_update (h.freshThread x hx),
    fun x hx => lt_brk_update (h.freshFiber x hx)⟩
  · intro x hx
    rw [hkey x hx]
    exact h.processesWF.find_none hn hx
  · intro x hx q hq
    rcases HashTable.mem_add.mp hx with rfl | hx
    · obtain rfl : _ = q := by simpa [Kernel.withProcess] using hq
      refine ⟨rfl, .empty _ _, ?_, ?_, ?_, .empty _ _, ?_, ?_, ?_, ?_, ?_⟩ <;>
        simp [HashTable.InjKeys, HashTable.size_empty]
    · rw [hold x hx] at hq
      exact (h.proc x hx q hq).congr_tgid (fun _ _ => rfl) (fun _ _ => rfl)
  · intro x hx
    by_cases hxn : x = k.nextPtr cur.tgid
    · subst hxn; simp [Kernel.withProcess, Kernel.nextPtr]
    · exact lt_brk_update (h.freshProcess x (by simpa [Kernel.withProcess, hxn] using hx))

/-- A new thread together with the fiber it runs. -/
theorem Shape.converted (h : Shape E k) (hmem : ep ∈ k.processes) (hp : k.process ep = some p)
    (hid : p.processId = cur.tgid) (ht : k.threadOf E p cur.pid = some none) :
    Shape E (k.converted E cur ep p) := by
  have hok := h.proc ep hmem p hp
  set k' := k.converted E cur ep p with hk'
  set gp : Ptr := k.nextPtr cur.tgid with hgp
  set fp : Ptr := ⟨cur.tgid, k.brk cur.tgid + 1⟩ with hfp
  have hnt : gp ∉ p.threads := hok.fresh_not_mem_threads h le_rfl
  have hnf : fp ∉ p.fibers := hok.fresh_not_mem_fibers h (by simp [hfp])
  have holdt : ∀ t ∈ p.threads, k'.thread t = k.thread t := fun t ht => by
    have hne : t ≠ gp := fun he => hnt (he ▸ ht)
    simp [hk', Kernel.converted, ← hgp, hne]
  have holdf : ∀ f ∈ p.fibers, k'.fiber f = k.fiber f := fun f hf => by
    have hne : f ≠ fp := fun he => hnf (he ▸ hf)
    simp [hk', Kernel.converted, ← hfp, hne]
  have hnewt : k'.thread gp = some { threadId := cur.pid, parent := ep, selectedFiber := some fp } := by
    simp [hk', Kernel.converted, ← hgp, hfp]
  have hnewf : k'.fiber fp = some (convertedFiber E cur gp fp (k.cpu cur) ep p.nextId) := by
    simp [hk', Kernel.converted, ← hfp, hgp]
  have htk : ∀ t ∈ p.threads, k'.threadKey t = k.threadKey t := fun t ht => by
    simp [Kernel.threadKey, holdt t ht]
  have hfk : ∀ f ∈ p.fibers, k'.fiberKey f = k.fiberKey f := fun f hf => by
    simp [Kernel.fiberKey, holdf f hf]
  have hatt : ∀ f ∈ p.fibers, k'.attached f = k.attached f := fun f hf => by
    simp [Kernel.attached, holdf f hf]
  have hsel : ∀ t ∈ p.threads, k'.selected t = k.selected t := fun t ht => by
    simp [Kernel.selected, holdt t ht]
  have hnewkey : k'.threadKey gp = some cur.pid := by simp [Kernel.threadKey, hnewt]
  refine h.of_local hmem hp rfl (q := (p.withThread E cur.pid gp).withFiber E fp) ?_ rfl ?_ ?_ ?_
    ?_ ?_ ?_ ?_
  · simp [hk', Kernel.converted, hfp, hgp]
  · intro x hx; simp [hk', Kernel.converted, hx]
  · intro x hx
    have hne : x ≠ gp := by rintro rfl; exact hx hid.symm
    simp [hk', Kernel.converted, ← hgp, hne]
  · intro x hx
    have hne : x ≠ fp := by rintro rfl; exact hx hid.symm
    simp [hk', Kernel.converted, ← hfp, hne]
  · refine ⟨hok.self, (hok.threadsWF.congr htk).add hnt hnewkey,
      (hok.threadsInj.congr htk).add hnewkey ?_, ?_, ?_, ?_, ?_, ?_, ?_, ?_, ?_⟩
    · intro t htm
      rw [htk t htm]
      exact hok.threadsWF.find_none ht htm
    · intro t htm
      rcases HashTable.mem_add.mp htm with rfl | htm
      · exact hid.symm
      · exact hok.threadTgid t htm
    · intro t htm r hr
      rcases HashTable.mem_add.mp htm with rfl | htm
      · obtain rfl : _ = r := by simpa [hnewt] using hr
        rfl
      · exact hok.parent t htm r (by rw [← holdt t htm, hr])
    · exact (hok.fibersWF.congr hfk).add hnf
        (by simp only [Kernel.fiberKey, hnewf, Option.map_some]; rfl)
    · intro f hf
      rcases HashTable.mem_add.mp hf with rfl | hf
      · exact hid.symm
      · exact hok.fiberTgid f hf
    · intro t htm
      rcases HashTable.mem_add.mp htm with rfl | htm
      · exact ⟨fp, HashTable.mem_add.mpr (.inl rfl), by simp [Kernel.selected, hnewt],
          by simp [Kernel.attached, hnewf, convertedFiber]⟩
      · obtain ⟨f, hf, h1, h2⟩ := hok.selected t htm
        exact ⟨f, HashTable.mem_add.mpr (.inr hf), by rw [hsel t htm, h1], by rw [hatt f hf, h2]⟩
    · intro f hf t hta
      rcases HashTable.mem_add.mp hf with rfl | hf
      · obtain rfl : gp = t := by simpa [Kernel.attached, hnewf, convertedFiber] using hta
        exact ⟨HashTable.mem_add.mpr (.inl rfl), by simp [Kernel.selected, hnewt]⟩
      · rw [hatt f hf] at hta
        obtain ⟨h1, h2⟩ := hok.attached f hf t hta
        exact ⟨HashTable.mem_add.mpr (.inr h1), by rw [hsel t h1, h2]⟩
    · intro f hf
      rcases HashTable.mem_add.mp hf with rfl | hf
      · simp [Kernel.locked, Kernel.attached, hnewf, convertedFiber]
      · rw [hatt f hf, ← hok.locked f hf]
        simp [Kernel.locked, holdf f hf]
    · have hsize := HashTable.size_add p.threads (E.hash cur.pid) gp
      change p.activeThreads + 1 = ((p.threads.add (E.hash cur.pid) gp).size : ℤ)
      rw [hsize, hok.active, Nat.cast_add, Nat.cast_one]
  · intro g
    by_cases hg : g = cur.tgid <;> simp [hk', Kernel.converted, hg]
  · intro x hx
    by_cases hxn : x = gp
    · subst hxn; simp [hk', Kernel.converted, hgp, Kernel.nextPtr]
    · exact lt_brk_update (h.freshThread x (by simpa [hk', Kernel.converted, ← hgp, hxn] using hx))
  · intro x hx
    by_cases hxn : x = fp
    · subst hxn; simp [hk', Kernel.converted, hfp]
    · exact lt_brk_update (h.freshFiber x (by simpa [hk', Kernel.converted, ← hfp, hxn] using hx))

end New

/-! ## Steps of converted threads -/

section Running

variable {ep tp f g : Ptr} {p : Process} {t : Thread} {r rg : Fiber}

/-- A successful switch moves one attachment. -/
theorem Shape.switched (h : Shape E k) (hr : Running E k cur ep p tp t f r) (hgm : g ∈ p.fibers)
    (hg : k.fiber g = some rg) (ha : rg.attachedThread = none) (hne : g ≠ f) :
    Shape E (k.switched cur tp g f t rg r) := by
  have hok := hr.procOk
  set k' := k.switched cur tp g f t rg r with hk'
  have hf' : k'.fiber f = some (leftFiber (k.cpu cur) r) := by simp [hk', Kernel.switched]
  have hg' : k'.fiber g = some (takenFiber tp rg) := by simp [hk', Kernel.switched, hne]
  have htp' : k'.thread tp = some { t with selectedFiber := some g } := by
    simp [hk', Kernel.switched]
  have hfo : ∀ x, x ≠ f → x ≠ g → k'.fiber x = k.fiber x := fun x h1 h2 => by
    simp [hk', Kernel.switched, h1, h2]
  have hto : ∀ x, x ≠ tp → k'.thread x = k.thread x := fun x h1 => by
    simp [hk', Kernel.switched, h1]
  have htk : ∀ x ∈ p.threads, k'.threadKey x = k.threadKey x := fun x _ => by
    by_cases hx : x = tp
    · subst hx; simp [Kernel.threadKey, htp', hr.thread_eq]
    · simp [Kernel.threadKey, hto x hx]
  have hfk : ∀ x ∈ p.fibers, k'.fiberKey x = k.fiberKey x := fun x _ => by
    by_cases hxf : x = f
    · subst hxf; simp [Kernel.fiberKey, hf', hr.fiber_eq, leftFiber]
    by_cases hxg : x = g
    · subst hxg; simp [Kernel.fiberKey, hg', hg, takenFiber]
    · simp [Kernel.fiberKey, hfo x hxf hxg]
  -- only `tp` was attached to `f`, and nobody to `g`
  have hself : k.selected tp = some f := by simp [Kernel.selected, hr.thread_eq, hr.selected]
  have hother : ∀ x ∈ p.threads, x ≠ tp → ∃ y ∈ p.fibers, y ≠ f ∧ y ≠ g ∧
      k.selected x = some y ∧ k.attached y = some x := fun x hx hxt => by
    obtain ⟨y, hy, h1, h2⟩ := hok.selected x hx
    refine ⟨y, hy, ?_, ?_, h1, h2⟩
    · rintro rfl
      simp [Kernel.attached, hr.fiber_eq, hr.attached] at h2
      exact hxt h2.symm
    · rintro rfl
      simp [Kernel.attached, hg, ha] at h2
  refine h.of_local hr.process_mem hr.process_eq rfl (q := p) ?_ rfl (fun x _ => rfl) ?_ ?_ ?_
    (fun _ => le_rfl) ?_ ?_
  · exact hr.process_eq
  · intro x hx
    exact hto x (by rintro rfl; exact hx (hok.threadTgid _ hr.thread_mem))
  · intro x hx
    exact hfo x (by rintro rfl; exact hx (hok.fiberTgid _ hr.fiber_mem))
      (by rintro rfl; exact hx (hok.fiberTgid _ hgm))
  · refine ⟨hok.self, hok.threadsWF.congr htk, hok.threadsInj.congr htk, hok.threadTgid, ?_,
      hok.fibersWF.congr hfk, hok.fiberTgid, ?_, ?_, ?_, hok.active⟩
    · intro x hx q hq
      by_cases hxt : x = tp
      · subst hxt
        obtain rfl : _ = q := by simpa [htp'] using hq
        exact hr.parent
      · exact hok.parent x hx q (by rw [← hto x hxt, hq])
    · intro x hx
      by_cases hxt : x = tp
      · subst hxt
        exact ⟨g, hgm, by simp [Kernel.selected, htp'], by simp [Kernel.attached, hg', takenFiber]⟩
      · obtain ⟨y, hy, hyf, hyg, h1, h2⟩ := hother x hx hxt
        exact ⟨y, hy, by simpa [Kernel.selected, hto x hxt] using h1,
          by simpa [Kernel.attached, hfo y hyf hyg] using h2⟩
    · intro y hy x hax
      by_cases hyf : y = f
      · subst hyf; simp [Kernel.attached, hf', leftFiber] at hax
      by_cases hyg : y = g
      · subst hyg
        obtain rfl : tp = x := by simpa [Kernel.attached, hg', takenFiber] using hax
        exact ⟨hr.thread_mem, by simp [Kernel.selected, htp']⟩
      · rw [show k'.attached y = k.attached y by simp [Kernel.attached, hfo y hyf hyg]] at hax
        obtain ⟨h1, h2⟩ := hok.attached y hy x hax
        have hxt : x ≠ tp := by
          rintro rfl
          rw [hself] at h2
          exact hyf (Option.some.inj h2).symm
        exact ⟨h1, by simpa [Kernel.selected, hto x hxt] using h2⟩
    · intro y hy
      by_cases hyf : y = f
      · subst hyf; simp [Kernel.attached, Kernel.locked, hf', leftFiber]
      by_cases hyg : y = g
      · subst hyg; simp [Kernel.attached, Kernel.locked, hg', takenFiber]
      · simpa [Kernel.attached, Kernel.locked, hfo y hyf hyg] using hok.locked y hy
  · intro x hx
    refine h.freshThread x ?_
    by_cases hxt : x = tp
    · subst hxt; simp [hr.thread_eq]
    · rwa [hto x hxt] at hx
  · intro x hx
    refine h.freshFiber x ?_
    by_cases hxf : x = f
    · subst hxf; simp [hr.fiber_eq]
    by_cases hxg : x = g
    · subst hxg; simp [hg]
    · rwa [hfo x hxf hxg] at hx

/-- A thread that is not the last dies. -/
theorem Shape.detached (h : Shape E k) (hr : Running E k cur ep p tp t f r) :
    Shape E (k.detached cur ep tp f p r) := by
  have hok := hr.procOk
  set k' := k.detached cur ep tp f p r with hk'
  have hf' : k'.fiber f = some (orphanedFiber (k.cpu cur) r) := by simp [hk', Kernel.detached]
  have hfo : ∀ x, x ≠ f → k'.fiber x = k.fiber x := fun x h1 => by simp [hk', Kernel.detached, h1]
  have hto : ∀ x, x ≠ tp → k'.thread x = k.thread x := fun x h1 => by
    simp [hk', Kernel.detached, h1]
  have hmem : ∀ x, x ∈ p.threads.del tp ↔ x ∈ p.threads ∧ x ≠ tp := fun x => hok.threadsWF.mem_del
  have htk : ∀ x ∈ p.threads.del tp, k'.threadKey x = k.threadKey x := fun x hx => by
    simp [Kernel.threadKey, hto x ((hmem x).mp hx).2]
  have hfk : ∀ x ∈ p.fibers, k'.fiberKey x = k.fiberKey x := fun x _ => by
    by_cases hxf : x = f
    · subst hxf; simp [Kernel.fiberKey, hf', hr.fiber_eq, orphanedFiber]
    · simp [Kernel.fiberKey, hfo x hxf]
  have hself : k.selected tp = some f := by simp [Kernel.selected, hr.thread_eq, hr.selected]
  refine h.of_local hr.process_mem hr.process_eq rfl
    (q := { p with activeThreads := p.activeThreads - 1, threads := p.threads.del tp }) ?_ rfl
    ?_ ?_ ?_ ?_ (fun _ => le_rfl) ?_ ?_
  · simp [hk', Kernel.detached]
  · intro x hx; simp [hk', Kernel.detached, hx]
  · intro x hx
    exact hto x (by rintro rfl; exact hx (hok.threadTgid _ hr.thread_mem))
  · intro x hx
    exact hfo x (by rintro rfl; exact hx (hok.fiberTgid _ hr.fiber_mem))
  · refine ⟨hok.self, hok.threadsWF.del.congr htk, hok.threadsInj.del.congr htk, ?_, ?_,
      hok.fibersWF.congr hfk, hok.fiberTgid, ?_, ?_, ?_, ?_⟩
    · exact fun x hx => hok.threadTgid x ((hmem x).mp hx).1
    · intro x hx q hq
      obtain ⟨hx, hxt⟩ := (hmem x).mp hx
      exact hok.parent x hx q (by rw [← hto x hxt, hq])
    · intro x hx
      obtain ⟨hx, hxt⟩ := (hmem x).mp hx
      obtain ⟨y, hy, h1, h2⟩ := hok.selected x hx
      have hyf : y ≠ f := by
        rintro rfl
        simp [Kernel.attached, hr.fiber_eq, hr.attached] at h2
        exact hxt h2.symm
      exact ⟨y, hy, by simpa [Kernel.selected, hto x hxt] using h1,
        by simpa [Kernel.attached, hfo y hyf] using h2⟩
    · intro y hy x hax
      by_cases hyf : y = f
      · subst hyf; simp [Kernel.attached, hf', orphanedFiber] at hax
      · rw [show k'.attached y = k.attached y by simp [Kernel.attached, hfo y hyf]] at hax
        obtain ⟨h1, h2⟩ := hok.attached y hy x hax
        have hxt : x ≠ tp := by
          rintro rfl
          rw [hself] at h2
          exact hyf (Option.some.inj h2).symm
        exact ⟨(hmem x).mpr ⟨h1, hxt⟩, by simpa [Kernel.selected, hto x hxt] using h2⟩
    · intro y hy
      by_cases hyf : y = f
      · subst hyf; simp [Kernel.attached, Kernel.locked, hf', orphanedFiber]
      · simpa [Kernel.attached, Kernel.locked, hfo y hyf] using hok.locked y hy
    · have hsize := hok.threadsWF.size_del hr.thread_mem
      change p.activeThreads - 1 = ((p.threads.del tp).size : ℤ)
      rw [hok.active, ← hsize, Nat.cast_add, Nat.cast_one, add_sub_cancel_right]
  · intro x hx
    refine h.freshThread x ?_
    by_cases hxt : x = tp
    · subst hxt; simp [hr.thread_eq]
    · rwa [hto x hxt] at hx
  · intro x hx
    refine h.freshFiber x ?_
    by_cases hxf : x = f
    · subst hxf; simp [hr.fiber_eq]
    · rwa [hfo x hxf] at hx

end Running

/-! ## After a creation -/

section Created

variable {ep tp f : Ptr} {p : Process} {t : Thread} {r : Fiber} {sp sz fn arg : Word}

/-- The creator finds its process and itself as before. -/
theorem Caller.created (h : Caller E k cur ep p tp t) :
    Caller E (k.created E cur ep p sp sz fn arg) cur ep (p.withFiber E (k.nextPtr cur.tgid))
      tp t where
  process := by
    rw [← h.process]
    refine HashTable.find_congr fun x _ => ?_
    by_cases hx : x = ep
    · subst hx
      simp [Kernel.processKey, Kernel.created, Kernel.withFiber, h.process_eq, Process.withFiber]
    · simp [Kernel.processKey, Kernel.created, Kernel.withFiber, hx]
  process_eq := by simp [Kernel.created, Kernel.withFiber]
  thread := h.thread
  thread_eq := h.thread_eq

theorem created_fiberOf :
    (k.created E cur ep p sp sz fn arg).fiberOf E (p.withFiber E (k.nextPtr cur.tgid)) p.nextId =
      some (some (k.nextPtr cur.tgid)) :=
  HashTable.find_add_self (by
    simp [Kernel.fiberKey, Kernel.created, Kernel.withFiber, createdFiber, initializedFiber])

/-- A new fiber can be switched to at once. -/
theorem created_switchTo (sp sz fn arg : Word) (h : Shape E k) (hr : Running E k cur ep p tp t f r) :
    ∃ k', Call.run E cur (.switchTo p.nextId) (k.created E cur ep p sp sz fn arg) = some (0, k') := by
  have hf := hr.fiber_eq
  have hne : k.nextPtr cur.tgid ≠ f := by
    rintro rfl
    have hnone : k.fiber (k.nextPtr cur.tgid) = none := h.fresh_fiber_none le_rfl
    simp [hnone] at hf
  have hold : (k.created E cur ep p sp sz fn arg).fiber f = some r := by
    simp [Kernel.created, Kernel.withFiber, hne.symm, hr.fiber_eq]
  exact ⟨_, doSwitchToFiber_free hr.toCaller.created created_fiberOf
    (by simp [Kernel.created, Kernel.withFiber]; rfl) rfl rfl hr.selected hold hne⟩

end Created

/-! ## Every record is linked -/

/-- A step inside one process record keeps the invariant if the record keeps
    its threads linked: what `Inv` adds to `Shape` is local too. -/
theorem Inv.of_shape {pp : Ptr} {p q : Process} (h : Inv E k) (hs : Shape E k')
    (hps : k'.processes = k.processes) (hpp : k.process pp = some p) (hpq : k'.process pp = some q)
    (hproc : ∀ x, x ≠ pp → k'.process x = k.process x) (hpop : ∃ t, t ∈ q.threads)
    (hlink : ∀ t r', k'.thread t = some r' →
      (r'.parent = pp ∧ t ∈ q.threads) ∨
        ∃ r, k.thread t = some r ∧ r.parent = r'.parent ∧ (r.parent = pp → t ∈ q.threads)) :
    Inv E k' := by
  refine { hs with populated := ?_, linkedProcess := ?_, linkedThread := ?_ }
  · intro x hx u hu
    rw [hps] at hx
    by_cases hxp : x = pp
    · subst hxp
      obtain rfl : q = u := by simpa [hpq] using hu
      exact hpop
    · exact h.populated x hx u (by rw [← hproc x hxp, hu])
  · intro x hx
    rw [hps]
    by_cases hxp : x = pp
    · subst hxp; exact h.linkedProcess x (by simp [hpp])
    · exact h.linkedProcess x (by rwa [← hproc x hxp])
  · intro t r' hr'
    rcases hlink t r' hr' with ⟨h1, h2⟩ | ⟨r, hr, h1, h2⟩
    · exact ⟨q, by rw [h1, hpq], h2⟩
    · obtain ⟨u, hu, htu⟩ := h.linkedThread t r hr
      rw [← h1]
      by_cases hrp : r.parent = pp
      · exact ⟨q, by rw [hrp, hpq], h2 hrp⟩
      · exact ⟨u, by rw [hproc _ hrp, hu], htu⟩

/-- A step that keeps process and thread records keeps what `Inv` adds to
    `Shape`. -/
theorem Inv.of_same (h : Inv E k) (hs : Shape E k') (hps : k'.processes = k.processes)
    (hp : k'.process = k.process) (ht : k'.thread = k.thread) : Inv E k' :=
  { hs with
    populated := by rw [hps, hp]; exact h.populated
    linkedProcess := by rw [hps, hp]; exact h.linkedProcess
    linkedThread := by rw [ht, hp]; exact h.linkedThread }

/-- Counting a failed attempt touches no ownership field. -/
theorem Inv.bumped (h : Inv E k) (f : Ptr) : Inv E (k.bumped f) := by
  cases hf : k.fiber f with
  | none => rwa [Kernel.bumped, Kernel.modFiber_self (by simp [hf])]
  | some r =>
    refine h.of_same ?_ rfl rfl rfl
    rw [Kernel.bumped, Kernel.modFiber_of_some hf]
    exact h.toShape.writeFiber hf rfl rfl rfl

/-! ## Teardown -/

/-- A process record disappears, with all its threads and records of its own. -/
theorem Inv.toreDown {ep : Ptr} {p : Process} {ts fs : List Ptr} (h : Inv E k)
    (hmem : ep ∈ k.processes) (hp : k.process ep = some p) (hts : ∀ t, t ∈ ts ↔ t ∈ p.threads)
    (hfs : ∀ f ∈ fs, f ∈ p.fibers) : Inv E (k.toreDown ep ts fs) := by
  have hok := h.proc ep hmem p hp
  have hmem' : ∀ x, x ∈ (k.toreDown ep ts fs).processes ↔ x ∈ k.processes ∧ x ≠ ep := fun x =>
    h.processesWF.mem_del
  have hold : ∀ x, x ≠ ep → (k.toreDown ep ts fs).process x = k.process x := fun x hx => by
    simp [Kernel.toreDown, hx]
  have hkey : ∀ x ∈ (k.toreDown ep ts fs).processes,
      (k.toreDown ep ts fs).processKey x = k.processKey x := fun x hx => by
    simp [Kernel.processKey, hold x ((hmem' x).mp hx).2]
  refine { processesWF := h.processesWF.del.congr hkey, processesInj := h.processesInj.del.congr hkey,
           proc := ?_, freshProcess := ?_, freshThread := ?_, freshFiber := ?_, populated := ?_,
           linkedProcess := ?_, linkedThread := ?_ }
  · intro x hx q hq
    obtain ⟨hx', hxe⟩ := (hmem' x).mp hx
    rw [hold x hxe] at hq
    have hne := h.processId_ne hmem hp hx' hq hxe
    refine (h.proc x hx' q hq).congr_tgid ?_ ?_
    · intro y hy
      have hnot : y ∉ ts := fun hyt => hne (hy ▸ hok.threadTgid y ((hts y).mp hyt))
      simp [Kernel.toreDown, hnot]
    · intro y hy
      have hnot : y ∉ fs := fun hyf => hne (hy ▸ hok.fiberTgid y (hfs y hyf))
      simp [Kernel.toreDown, hnot]
  · intro x hx
    refine h.freshProcess x ?_
    by_cases hxe : x = ep
    · subst hxe; simp [hp]
    · rwa [hold x hxe] at hx
  · intro x hx
    refine h.freshThread x ?_
    by_cases hxt : x ∈ ts <;> simp_all [Kernel.toreDown]
  · intro x hx
    refine h.freshFiber x ?_
    by_cases hxt : x ∈ fs <;> simp_all [Kernel.toreDown]
  · intro x hx q hq
    obtain ⟨hx', hxe⟩ := (hmem' x).mp hx
    exact h.populated x hx' q (by rw [← hold x hxe, hq])
  · intro x hx
    have hxe : x ≠ ep := by rintro rfl; simp [Kernel.toreDown] at hx
    rw [hold x hxe] at hx
    exact (hmem' x).mpr ⟨h.linkedProcess x hx, hxe⟩
  · intro t r hr
    have hnot : t ∉ ts := fun hm => by simp [Kernel.toreDown, hm] at hr
    obtain ⟨q, hq, htq⟩ := h.linkedThread t r (by simpa [Kernel.toreDown, hnot] using hr)
    have hxe : r.parent ≠ ep := fun he => by
      obtain rfl : p = q := by simpa [he, hp] using hq
      exact hnot ((hts t).mpr htq)
    exact ⟨q, by rw [hold _ hxe, hq], htq⟩

/-! ## Every step keeps the invariant -/

theorem Inv.converted {ep : Ptr} {p : Process} (h : Shape E k) (hmem : ep ∈ k.processes)
    (hp : k.process ep = some p) (hid : p.processId = cur.tgid)
    (ht : k.threadOf E p cur.pid = some none)
    (hpop : ∀ pp ∈ k.processes, pp ≠ ep → ∀ p, k.process pp = some p → ∃ t, t ∈ p.threads)
    (hlp : ∀ pp, (k.process pp).isSome → pp ∈ k.processes)
    (hlt : ∀ t r, k.thread t = some r → ∃ p, k.process r.parent = some p ∧ t ∈ p.threads) :
    Inv E (k.converted E cur ep p) := by
  have hold : ∀ x, x ≠ ep → (k.converted E cur ep p).process x = k.process x := fun x hx => by
    simp [Kernel.converted, hx]
  have hnew : (k.converted E cur ep p).process ep = some ((p.withThread E cur.pid
      (k.nextPtr cur.tgid)).withFiber E ⟨cur.tgid, k.brk cur.tgid + 1⟩) := by
    simp [Kernel.converted]
  refine { h.converted hmem hp hid ht with populated := ?_, linkedProcess := ?_, linkedThread := ?_ }
  · intro x hx q hq
    by_cases hxe : x = ep
    · subst hxe
      obtain rfl : _ = q := by simpa [hnew] using hq
      exact ⟨_, HashTable.mem_add.mpr (.inl rfl)⟩
    · exact hpop x hx hxe q (by rw [← hold x hxe, hq])
  · intro x hx
    by_cases hxe : x = ep
    · subst hxe; exact hmem
    · exact hlp x (by rwa [← hold x hxe])
  · intro t r hr
    by_cases htn : t = k.nextPtr cur.tgid
    · subst htn
      obtain rfl : _ = r := by simpa [Kernel.converted] using hr
      exact ⟨_, hnew, HashTable.mem_add.mpr (.inl rfl)⟩
    · obtain ⟨q, hq, htq⟩ := hlt t r (by simpa [Kernel.converted, htn] using hr)
      by_cases hre : r.parent = ep
      · obtain rfl : p = q := by simpa [hre, hp] using hq
        exact ⟨_, by rw [hre, hnew], HashTable.mem_add.mpr (.inr htq)⟩
      · exact ⟨q, by rw [hold _ hre, hq], htq⟩

theorem Inv.step {op : Op} {r : ℤ} (h : Inv E k) (hs : Outcome E k op r k') : Inv E k' := by
  cases hs with
  | refused | again | switchMissing | releaseNone => exact h
  | user => exact h.of_same ⟨h.processesWF, h.processesInj,
      fun pp hpp p hp => (h.proc pp hpp p hp).congr_tgid (fun _ _ => rfl) (fun _ _ => rfl),
      h.freshProcess, h.freshThread, h.freshFiber⟩ rfl rfl rfl
  | @convertedFirst cur hn =>
    have hw := h.toShape.withProcess hn
    have hnone : k.process (k.nextPtr cur.tgid) = none := h.fresh_process_none le_rfl
    refine Inv.converted hw (HashTable.mem_add.mpr (.inl rfl)) (by simp [Kernel.withProcess]) rfl rfl
      ?_ ?_ ?_
    · intro x hx hne q hq
      exact h.populated x ((HashTable.mem_add.mp hx).resolve_left hne) q
        (by simpa [Kernel.withProcess, hne] using hq)
    · intro x hx
      by_cases hxe : x = k.nextPtr cur.tgid
      · exact HashTable.mem_add.mpr (.inl hxe)
      · exact HashTable.mem_add.mpr (.inr (h.linkedProcess x
          (by simpa [Kernel.withProcess, hxe] using hx)))
    · intro t q hq
      obtain ⟨p, hp, htp⟩ := h.linkedThread t q hq
      have hne : q.parent ≠ k.nextPtr cur.tgid := by rintro he; simp [he, hnone] at hp
      exact ⟨p, by simp [Kernel.withProcess, hne, hp], htp⟩
  | converted hep hp ht =>
    obtain ⟨hmem, -, hid⟩ := h.processOf_found hep hp
    exact Inv.converted h.toShape hmem hp hid ht (fun x hx _ => h.populated x hx) h.linkedProcess
      h.linkedThread
  | @created cur ep tp f p t r sp sz fn arg hr =>
    refine h.of_shape (q := p.withFiber E (k.nextPtr cur.tgid))
      (h.toShape.withFiber hr.process_mem hr.process_eq hr.processId rfl rfl rfl) rfl
      hr.process_eq (by simp [Kernel.created, Kernel.withFiber])
      (fun x hx => by simp [Kernel.created, Kernel.withFiber, hx]) ⟨tp, hr.thread_mem⟩ ?_
    intro x q hq
    obtain ⟨p₁, hp₁, hx⟩ := h.linkedThread x q hq
    refine .inr ⟨q, hq, rfl, fun he => ?_⟩
    obtain rfl : p = p₁ := by simpa [he, hr.process_eq] using hp₁
    exact hx
  | switchBusy => exact h.bumped _
  | @switched cur ep tp f g p t r rg id hr hid hg hl ha hne =>
    refine h.of_shape (q := p) (h.toShape.switched hr (HashTable.find_eq_some hid).1 hg ha hne) rfl
      hr.process_eq hr.process_eq (fun _ _ => rfl) ⟨tp, hr.thread_mem⟩ ?_
    intro x q hq
    by_cases hx : x = tp
    · subst hx
      obtain rfl : _ = q := by simpa [Kernel.switched] using hq
      exact .inl ⟨hr.parent, hr.thread_mem⟩
    · have hq : k.thread x = some q := by simpa [Kernel.switched, hx] using hq
      obtain ⟨p₁, hp₁, hxm⟩ := h.linkedThread x q hq
      refine .inr ⟨q, hq, rfl, fun he => ?_⟩
      obtain rfl : p = p₁ := by simpa [he, hr.process_eq] using hp₁
      exact hxm
  | @fls cur ep tp f p t r c hr hc =>
    obtain ⟨bitmap, values, he⟩ := flsEffect_eq c r
    exact h.of_same (h.toShape.writeFiber hr.fiber_eq (by rw [he]) (by rw [he]) (by rw [he]))
      rfl rfl rfl
  | @detached cur ep tp f p t r hr hact =>
    have hmem : ∀ x, x ∈ p.threads.del tp ↔ x ∈ p.threads ∧ x ≠ tp := fun x =>
      hr.procOk.threadsWF.mem_del
    refine h.of_shape (h.toShape.detached hr) rfl hr.process_eq
      (q := { p with activeThreads := p.activeThreads - 1, threads := p.threads.del tp })
      (by simp [Kernel.detached]) (fun x hx => by simp [Kernel.detached, hx]) ?_ ?_
    · have hsize := hr.procOk.threadsWF.size_del hr.thread_mem
      have hactive := hr.procOk.active
      exact HashTable.exists_mem_of_size_pos (T := p.threads.del tp) (by omega)
    · intro x q hq
      have hx : x ≠ tp := by rintro rfl; simp [Kernel.detached] at hq
      have hq : k.thread x = some q := by simpa [Kernel.detached, hx] using hq
      obtain ⟨p₁, hp₁, hxm⟩ := h.linkedThread x q hq
      refine .inr ⟨q, hq, rfl, fun he => ?_⟩
      obtain rfl : p = p₁ := by simpa [he, hr.process_eq] using hp₁
      exact (hmem x).mpr ⟨hxm, hx⟩
  | @lastExit cur ep tp f p t r hr hact =>
    refine h.toreDown hr.process_mem hr.process_eq (fun x => ?_) fun x hx => mem_hashForEach.mp hx
    have hsize := hr.procOk.threadsWF.size_del hr.thread_mem
    have hactive := hr.procOk.active
    constructor
    · rintro hx
      obtain rfl := List.mem_singleton.mp hx
      exact hr.thread_mem
    · -- a second thread would have been counted
      intro hx
      by_contra hne
      have hx' : x ∈ p.threads.del tp :=
        hr.procOk.threadsWF.mem_del.mpr ⟨hx, fun he => hne (by simp [he])⟩
      have := HashTable.size_pos_of_mem hx'
      omega
  | released hep hp =>
    obtain ⟨hmem, -, -⟩ := h.processOf_found hep hp
    exact h.toreDown hmem hp (fun t => mem_hashForEach) fun f hf => mem_hashForEach.mp hf

theorem Reachable.inv (h : Reachable E k) : Inv E k :=
  h.invariant Inv.boot fun _ _ _ _ hk hs => hk.step (hk.toShape.outcome_of_run hs)

/-! ## The ownership facts -/

theorem length_hashForEach (T : Table) : (hashForEach T).length = T.size := by
  rw [hashForEach, List.length_flatMap, HashTable.size, Fin.sum_univ_def]

/-- A thread record selects fibers of its own process only. -/
theorem Inv.mem_threads_of_selected {pp t f : Ptr} {p : Process} (h : Inv E k)
    (hpp : pp ∈ k.processes) (hp : k.process pp = some p) (hf : f ∈ p.fibers)
    (hsel : k.selected t = some f) : t ∈ p.threads := by
  obtain ⟨r, hr, -⟩ := Option.bind_eq_some_iff.mp hsel
  obtain ⟨q, hq, htq⟩ := h.linkedThread t r hr
  have hmem := h.linkedProcess r.parent (by simp [hq])
  obtain ⟨f', hf', hsel', -⟩ := (h.proc _ hmem q hq).selected t htq
  obtain rfl : f = f' := by simpa [hsel] using hsel'
  -- the fiber's address tells its process
  have hid : q.processId = p.processId := by
    rw [← (h.proc _ hmem q hq).fiberTgid f hf', (h.proc pp hpp p hp).fiberTgid f hf]
  have heq : r.parent = pp :=
    h.processesInj _ hmem pp hpp (by simp [Kernel.processKey, hp, hq, hid])
  obtain rfl : q = p := by simpa [heq, hp] using hq.symm
  exact htq

/-- In every reachable state the four places that say who runs which fiber
    agree, and a process record exists exactly as long as a thread record of it
    does. -/
theorem ownership_invariant (h : Reachable E k) :
    (∀ pp p, k.process pp = some p → pp ∈ k.processes ∧
      (∀ f ∈ p.fibers, ∀ t, k.selected t = some f ↔ k.attached f = some t) ∧
      (∀ t ∈ p.threads, ∃ f ∈ p.fibers, k.selected t = some f) ∧
      (∀ t ∈ p.threads, ∀ t' ∈ p.threads, t ≠ t' → k.selected t ≠ k.selected t') ∧
      (∀ f ∈ p.fibers, k.locked f = true ↔ (k.attached f).isSome) ∧
      p.activeThreads = (hashForEach p.threads).length ∧ (hashForEach p.threads).Nodup) ∧
    ∀ pp, (k.process pp).isSome ↔ ∃ t r, k.thread t = some r ∧ r.parent = pp := by
  have hinv := h.inv
  refine ⟨fun pp p hp => ?_, fun pp => ⟨fun hpp => ?_, ?_⟩⟩
  · have hmem := hinv.linkedProcess pp (by simp [hp])
    have hok := hinv.proc pp hmem p hp
    refine ⟨hmem, fun f hf t => ⟨fun hsel => ?_, fun hatt => (hok.attached f hf t hatt).2⟩,
      fun t ht => ?_, fun t ht t' ht' hne heq => hne (hok.selected_inj ht ht' heq), hok.locked, ?_,
      nodup_hashForEach hok.threadsWF⟩
    · have ht := hinv.mem_threads_of_selected hmem hp hf hsel
      obtain ⟨f', -, hsel', hatt⟩ := hok.selected t ht
      obtain rfl : f = f' := by simpa [hsel] using hsel'
      exact hatt
    · obtain ⟨f, hf, hsel, -⟩ := hok.selected t ht
      exact ⟨f, hf, hsel⟩
    · rw [length_hashForEach, hok.active]
  · obtain ⟨p, hp⟩ := Option.isSome_iff_exists.mp hpp
    have hmem := hinv.linkedProcess pp hpp
    obtain ⟨t, ht⟩ := hinv.populated pp hmem p hp
    obtain ⟨r, hr⟩ := (hinv.proc pp hmem p hp).thread_exists ht
    exact ⟨t, r, hr, (hinv.proc pp hmem p hp).parent t ht r hr⟩
  · rintro ⟨t, r, hr, rfl⟩
    obtain ⟨p, hp, -⟩ := hinv.linkedThread t r hr
    simp [hp]

/-- The state after the first conversion in a process. -/
def Kernel.firstConverted (E : Env) (cur : Task) (cpu : Task → Cpu) : Kernel :=
  ((Kernel.boot cpu).withProcess E cur).converted E cur ⟨cur.tgid, 0⟩
    { processId := cur.tgid, lastFiberId := 0, activeThreads := 0,
      threads := .empty, fibers := .empty }

theorem firstConverted_run (E : Env) (cur : Task) (cpu : Task → Cpu) :
    Call.run E cur .convert (Kernel.boot cpu) = some (1, Kernel.firstConverted E cur cpu) := by
  have hnew : findOrCreateProcess E cur (Kernel.boot cpu) =
      some (⟨cur.tgid, 0⟩, (Kernel.boot cpu).withProcess E cur) := findOrCreateProcess_new rfl
  have hrec : ((Kernel.boot cpu).withProcess E cur).process ⟨cur.tgid, 0⟩ = some
      { processId := cur.tgid, lastFiberId := 0, activeThreads := 0,
        threads := .empty, fibers := .empty } := by
    simp [Kernel.withProcess, Kernel.nextPtr, Kernel.boot]
  exact doConvertThreadToFiber_new hnew hrec rfl

theorem Reachable.firstConverted (E : Env) (cur : Task) (cpu : Task → Cpu) :
    Reachable E (Kernel.firstConverted E cur cpu) :=
  Reachable.step (.boot cpu) (show (Op.call cur .convert).run E _ = _ from firstConverted_run E cur cpu)

/-- The converted thread finds its process and itself. -/
theorem firstConverted_caller (E : Env) (cur : Task) (cpu : Task → Cpu) :
    Caller E (Kernel.firstConverted E cur cpu) cur ⟨cur.tgid, 0⟩
      { processId := cur.tgid, lastFiberId := 1, activeThreads := 1,
        threads := HashTable.empty.add (E.hash cur.pid) ⟨cur.tgid, 1⟩,
        fibers := HashTable.empty.add (E.hash 1) ⟨cur.tgid, 2⟩ }
      ⟨cur.tgid, 1⟩ { threadId := cur.pid, parent := ⟨cur.tgid, 0⟩, selectedFiber := some ⟨cur.tgid, 2⟩ } where
  process := HashTable.find_add_self (by simp [Kernel.processKey, Kernel.firstConverted,
    Kernel.converted, Kernel.withProcess, Kernel.boot, Kernel.nextPtr, Process.withFiber,
    Process.withThread])
  process_eq := by
    simp [Kernel.firstConverted, Kernel.converted, Process.withFiber, Process.withThread,
      Process.nextId, Kernel.withProcess, Kernel.boot, Kernel.nextPtr]
  thread := HashTable.find_add_self (by simp [Kernel.threadKey, Kernel.firstConverted,
    Kernel.converted, Kernel.withProcess, Kernel.boot, Kernel.nextPtr])
  thread_eq := by
    simp [Kernel.firstConverted, Kernel.converted, Kernel.withProcess, Kernel.boot, Kernel.nextPtr]

/-- After one conversion there is a process record, so it has a thread record. -/
theorem ownership_invariant_firstConverted :
    ∃ t r, (Kernel.firstConverted (.linux 240) ⟨7, 7⟩ fun _ => .zero).thread t = some r ∧
      r.parent = ⟨7, 0⟩ :=
  ((ownership_invariant (.firstConverted (.linux 240) ⟨7, 7⟩ fun _ => .zero)).2 ⟨7, 0⟩).mp
    (by simp [Kernel.firstConverted, Kernel.converted])

end AosvFibers
