import Mathlib.Tactic

/-!
# Reading a text in pieces

An open file is read by calls that ask for some number of elements at the current
offset. Each call gives the elements it returns and the next offset, and returns
nothing at the end of the file.

* `results` and `offsetAfter` are what a sequence of calls returns and where it
  leaves the offset; `beforeEnd` is what came before the first empty return.
* `readAt` is the read that a text is owed. `Agrees` says that every call of a
  sequence is one, and `Agrees.readsText` that such a sequence returns the text
  piece by piece and stays within it.
-/

namespace AosvFibers.Lib

variable {α : Type*}

/-- The results of the calls with lengths `lens` from offset `off` on. -/
def results (read : ℕ → ℕ → List α × ℕ) : List ℕ → ℕ → List (List α)
  | [], _ => []
  | len :: lens, off => (read len off).1 :: results read lens (read len off).2

/-- The offset after the calls. -/
def offsetAfter (read : ℕ → ℕ → List α × ℕ) : List ℕ → ℕ → ℕ
  | [], off => off
  | len :: lens, off => offsetAfter read lens (read len off).2

/-- What was returned before the first empty return. -/
def beforeEnd : List (List α) → List α
  | [] => []
  | [] :: _ => []
  | (a :: bs) :: rs => a :: bs ++ beforeEnd rs

/-- The read of `len` elements of `text` at offset `off`. -/
def readAt (text : List α) (len off : ℕ) : List α × ℕ :=
  ((text.drop off).take len, off + min len (text.length - off))

/-- The calls from offset `off` on return `text` from there on, copy nothing from
    outside it and leave the offset within it. -/
structure ReadsText (read : ℕ → ℕ → List α × ℕ) (text : List α) (lens : List ℕ) (off : ℕ) :
    Prop where
  whole : [] ∈ results read lens off → beforeEnd (results read lens off) = text.drop off
  copies : ∀ pre len post, lens = pre ++ len :: post →
    offsetAfter read pre off + (read len (offsetAfter read pre off)).1.length ≤ text.length
  offset : ∀ pre post, lens = pre ++ post → offsetAfter read pre off ≤ text.length

/-- Every call is the read that `text` is owed. -/
def Agrees (read : ℕ → ℕ → List α × ℕ) (text : List α) : List ℕ → ℕ → Prop
  | [], _ => True
  | len :: lens, off =>
    read len off = readAt text len off ∧ Agrees read text lens (readAt text len off).2

variable {read : ℕ → ℕ → List α × ℕ} {text : List α} {len off : ℕ} {lens : List ℕ}

theorem readAt_offset_le (h : off ≤ text.length) : (readAt text len off).2 ≤ text.length := by
  show off + min len (text.length - off) ≤ text.length
  omega

/-- A read returns elements until the end is reached. -/
theorem readAt_fst_eq_nil (hlen : 0 < len) (h : off ≤ text.length) :
    (readAt text len off).1 = [] ↔ off = text.length := by
  unfold readAt
  rw [List.take_eq_nil_iff, List.drop_eq_nil_iff]
  omega

theorem readAt_append (text : List α) (len off : ℕ) :
    (readAt text len off).1 ++ text.drop (readAt text len off).2 = text.drop off := by
  show (text.drop off).take len ++ text.drop (off + min len (text.length - off)) = text.drop off
  rcases le_total len (text.length - off) with h | h
  · rw [min_eq_left h, ← List.drop_drop, List.take_append_drop]
  · have hend : text.length ≤ off + (text.length - off) := by omega
    rw [min_eq_right h, List.take_of_length_le (by simpa using h), List.drop_of_length_le hend,
      List.append_nil]

theorem beforeEnd_cons {r : List α} (hr : r ≠ []) (rs : List (List α)) :
    beforeEnd (r :: rs) = r ++ beforeEnd rs := by
  cases r with
  | nil => exact absurd rfl hr
  | cons a bs => rfl

theorem ReadsText.nil (h : off ≤ text.length) : ReadsText read text [] off where
  whole hend := absurd hend List.not_mem_nil
  copies pre len post hsplit := by simp at hsplit
  offset pre post hsplit := by
    obtain ⟨rfl, rfl⟩ : pre = [] ∧ post = [] := by simpa using hsplit
    exact h

/-- One read, and the rest of the sequence. -/
theorem ReadsText.cons (hlen : 0 < len) (hoff : off ≤ text.length)
    (hread : read len off = readAt text len off)
    (h : ReadsText read text lens (readAt text len off).2) :
    ReadsText read text (len :: lens) off where
  whole hend := by
    rw [results, hread] at hend ⊢
    by_cases hnil : off = text.length
    · rw [(readAt_fst_eq_nil hlen hoff).mpr hnil, hnil, List.drop_length]
      rfl
    · have hne : (readAt text len off).1 ≠ [] := fun he => hnil ((readAt_fst_eq_nil hlen hoff).mp he)
      have hend' := (List.mem_cons.mp hend).resolve_left hne.symm
      rw [beforeEnd_cons hne, h.whole hend', readAt_append]
  copies pre len' post hsplit := by
    cases pre with
    | nil =>
      obtain ⟨rfl, rfl⟩ : len = len' ∧ lens = post := by simpa using hsplit
      rw [offsetAfter, hread]
      show off + ((text.drop off).take len).length ≤ text.length
      simp
      omega
    | cons n pre =>
      obtain ⟨rfl, rfl⟩ : len = n ∧ lens = pre ++ len' :: post := by simpa using hsplit
      rw [offsetAfter, hread]
      exact h.copies pre len' post rfl
  offset pre post hsplit := by
    cases pre with
    | nil => exact hoff
    | cons n pre =>
      obtain ⟨rfl, rfl⟩ : len = n ∧ lens = pre ++ post := by simpa using hsplit
      rw [offsetAfter, hread]
      exact h.offset pre post rfl

/-- Calls that are the reads the text is owed return it piece by piece. -/
theorem Agrees.readsText (hpos : ∀ len ∈ lens, 0 < len) (hoff : off ≤ text.length)
    (h : Agrees read text lens off) : ReadsText read text lens off := by
  induction lens generalizing off with
  | nil => exact .nil hoff
  | cons len lens ih =>
    have hrest := ih (fun n hn => hpos n (List.mem_cons_of_mem len hn)) (readAt_offset_le hoff) h.2
    exact .cons (hpos len List.mem_cons_self) hoff h.1 hrest

/-- A read past the end makes the sequence fail. -/
theorem ReadsText.offset_le (h : ReadsText read text (len :: lens) off) :
    (read len off).2 ≤ text.length := h.offset [len] lens rfl

theorem ReadsText.tail (h : ReadsText read text (len :: lens) off)
    (hread : read len off = readAt text len off) (hlen : 0 < len) (hoff : off < text.length) :
    ReadsText read text lens (readAt text len off).2 where
  whole hend := by
    have hne : (readAt text len off).1 ≠ [] := by
      intro he
      have := (readAt_fst_eq_nil hlen hoff.le).mp he
      omega
    have hw := h.whole
    rw [results, hread, beforeEnd_cons hne, ← readAt_append text len off] at hw
    exact List.append_cancel_left (hw (List.mem_cons_of_mem _ hend))
  copies pre n post hsplit := by
    have hc := h.copies (len :: pre) n post (by rw [hsplit]; rfl)
    rwa [offsetAfter, hread] at hc
  offset pre post hsplit := by
    have ho := h.offset (len :: pre) post (by rw [hsplit]; rfl)
    rwa [offsetAfter, hread] at ho

/-! ## When every call agrees -/

/-- Once the end is reached, a file that returns nothing there agrees for good. -/
theorem Agrees.of_end (hread : ∀ len, read len text.length = ([], text.length)) :
    Agrees read text lens text.length := by
  induction lens with
  | nil => trivial
  | cons len lens ih =>
    have howed : readAt text len text.length = ([], text.length) := by simp [readAt]
    refine ⟨(hread len).trans howed.symm, ?_⟩
    rw [howed]
    exact ih

end AosvFibers.Lib
