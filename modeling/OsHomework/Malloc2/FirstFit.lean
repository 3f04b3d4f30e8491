import OsHomework.Malloc2.Stats

/-!
# `malloc_2`: first fit

* `Layout.malloc_reuses`: `malloc` takes the lowest free block that is large enough;
* `Appended s s' l size`: a block of `size` bytes was put at the end of the list `l`;
* `FirstFit ok s l size`: what is expected of `smalloc`, and **`Layout.firstFit`**;
* **`first_fit`**: it holds in every state of every run, and blocks stay where they are.
-/

set_option autoImplicit false

namespace OsHomework.Malloc2

/-- In a list in ascending order, a search finds the least element that passes the test. -/
theorem find?_of_sorted {l : List ℕ} {p : ℕ → Bool} {a : ℕ} (hs : l.Pairwise (· < ·)) (ha : a ∈ l)
    (hp : p a = true) (hmin : ∀ b ∈ l, p b = true → a ≤ b) : l.find? p = some a := by
  induction l with
  | nil => simp at ha
  | cons b l ih =>
    obtain ⟨hb, hs⟩ := List.pairwise_cons.mp hs
    rcases List.mem_cons.mp ha with rfl | ha
    · exact List.find?_cons_of_pos hp
    · have hnot : ¬ p b = true := by
        intro hpb
        have := hmin b List.mem_cons_self hpb
        have := hb a ha
        omega
      rw [List.find?_cons_of_neg hnot]
      exact ih hs ha fun c hc => hmin c (List.mem_cons_of_mem _ hc)

/-- **A block of `size` bytes was put at the end of the list `l`**, at the old break. Nothing else
changes but the link of the last block. -/
structure Appended (s s' : State) (l : List ℕ) (size : ℕ) : Prop where
  brk : s'.brk = s.brk + (size + sizeofMetadata)
  linked : Seg (fun a => (hdr s'.mem a).next) s'.head (l ++ [s.brk]) 0
  new : hdr s'.mem s.brk = ⟨size, false, 0, l.getLastD 0⟩
  last : ∀ z ∈ l.getLast?, hdr s'.mem z = { hdr s.mem z with next := s.brk }
  others : ∀ a ∈ l, l.getLast? ≠ some a → hdr s'.mem a = hdr s.mem a
  frame : ∀ x, OffHeaders (l ++ [s.brk]) x → s'.mem x = s.mem x

/-- **What is expected of `smalloc`**, with `l` the blocks of the list. -/
structure FirstFit (ok : Bool) (s : State) (l : List ℕ) (size : ℕ) : Prop where
  reuses : ∀ a ∈ l, Fits s.mem size a → (∀ b ∈ l, Fits s.mem size b → a ≤ b) →
    Returns (fun n => smalloc ok n s size)
      ({ s with mem := setIsFree s.mem a false }, a + sizeofMetadata)
  grows : (∀ a ∈ l, ¬ Fits s.mem size a) → sbrk ok s (size + sizeofMetadata) ≠ none →
    ∃ s', Returns (fun n => smalloc ok n s size) (s', s.brk + sizeofMetadata) ∧ Appended s s' l size
  fails : (∀ a ∈ l, ¬ Fits s.mem size a) → sbrk ok s (size + sizeofMetadata) = none →
    Returns (fun n => smalloc ok n s size) (s, 0)

section FirstFit

variable {brk₀ : ℕ} {s s' : State} {l l' : List ℕ} {a size : ℕ}

/-- **`malloc` takes the lowest free block that is large enough.** -/
theorem Layout.malloc_reuses (h : Layout brk₀ s l) (ok : Bool) (ha : a ∈ l) (hfit : Fits s.mem size a = true)
    (hmin : ∀ b ∈ l, Fits s.mem size b = true → a ≤ b) : Returns (fun n => Malloc2.malloc ok n s size)
      ({ s with mem := setIsFree s.mem a false }, a + sizeofMetadata) := by
  have hfind := find?_of_sorted h.blocks.sorted ha hfit hmin
  refine ⟨l.length + 1, fun n hn => ?_⟩
  simp only [Malloc2.malloc, findBlock_spec h.blocks.linked hn, hfind, Outcome.ret_bind]

/-- The headers and the other bytes after a block was put at the end. -/
theorem Layout.appended (h : Layout brk₀ s l) (hbrk : s.brk + (size + sizeofMetadata) < 2 ^ 64)
    (hs : s' = appendBlock { s with brk := s.brk + (size + sizeofMetadata) } s.brk (l.getLastD s.head) size)
    (hl' : Layout brk₀ s' (l ++ [s.brk])) : Appended s s' l size := by
  rcases List.eq_nil_or_concat' l with rfl | ⟨l, z, rfl⟩
  · have hhead : s.head = 0 := h.blocks.linked
    simp only [appendBlock, hhead, if_pos, List.getLastD_nil] at hs
    refine ⟨by rw [hs], hl'.blocks.linked, ?_, by simp, by simp, fun x hx => ?_⟩
    · rw [hs, hdr_writeHeader, Nat.mod_eq_of_lt (show size < 2 ^ 64 by omega), Nat.zero_mod]
      rfl
    · rw [hs]
      exact writeHeader_out _ (hx s.brk (by simp))
  · have hhead : s.head ≠ 0 := by
      rw [(h.first (by simp)).1]
      exact h.pos.ne'
    simp only [appendBlock, if_neg hhead, List.getLastD_concat] at hs
    obtain ⟨hnew, hlast, hold⟩ := h.hdr_append hbrk (show s'.mem = _ by rw [hs])
    refine ⟨by rw [hs], hl'.blocks.linked, ?_, ?_, fun a ha hne => ?_, fun x hx => ?_⟩
    · rw [hnew, List.getLastD_concat]
    · intro y hy
      obtain rfl : z = y := by simpa using hy
      exact hlast
    · apply hold
      rcases List.mem_append.mp ha with ha | ha
      · exact ha
      · obtain rfl := List.mem_singleton.mp ha
        exact absurd (by simp) hne
    · rw [hs]
      exact (setNext_out _ _ _ (hx z (by simp))).trans (writeHeader_out _ (hx s.brk (by simp)))

/-- With no block to reuse, a new one is put at the end. -/
theorem Layout.malloc_grows (h : Layout brk₀ s l) {ok : Bool} (hf : ∀ a ∈ l, ¬ Fits s.mem size a = true)
    (hsys : sbrk ok s (size + sizeofMetadata) ≠ none) :
    ∃ s', Returns (fun n => Malloc2.malloc ok n s size) (s', s.brk + sizeofMetadata) ∧
      Appended s s' l size := by
  by_cases hok : ok = true ∧ s.brk + (size + sizeofMetadata) < 2 ^ 64
  · obtain ⟨rfl, hbrk⟩ := hok
    have hr := h.malloc_of_not_fits true hf
    rw [sbrk, if_pos ⟨rfl, hbrk⟩] at hr
    obtain ⟨s', hr', -, hl', -⟩ := h.extend hbrk hf
    obtain ⟨he, -⟩ := Prod.mk.inj (hr.unique hr')
    exact ⟨s', hr', h.appended hbrk he.symm hl'⟩
  · exact absurd (if_neg hok) hsys

/-- **`smalloc` is first fit.** -/
theorem Layout.firstFit (h : Layout brk₀ s l) (ok : Bool) (h₁ : 1 ≤ size) (h₂ : size ≤ maxSizeToAllocate) :
    FirstFit ok s l size := by
  have hok : ¬ (size = 0 ∨ maxSizeToAllocate < size) := by omega
  have hcall : (fun n => Malloc2.smalloc ok n s size) = fun n => Malloc2.malloc ok n s size := by
    funext n
    rw [Malloc2.smalloc, if_neg hok]
  constructor
  · intro a ha hfit hmin
    rw [hcall]
    exact h.malloc_reuses ok ha hfit hmin
  · intro hf hsys
    rw [hcall]
    exact h.malloc_grows hf hsys
  · intro hf hsys
    have hr := h.malloc_of_not_fits ok hf
    rw [hsys] at hr
    rw [hcall]
    exact hr

/-- **No call moves a block or changes its size.** -/
theorem Effect.sizes {op : Op} {r : ℕ} (h : Effect brk₀ s l op s' r l') (hl : Layout brk₀ s l) (ha : a ∈ l) :
    (hdr s'.mem a).size = (hdr s.mem a).size := by
  have halloc : ∀ {size}, AllocTo s l size s' r l' → (hdr s'.mem a).size = (hdr s.mem a).size := by
    rintro size (_ | ht)
    · rfl
    · exact ht.sizes a ha
  have hfree : ∀ {t : State} {l'' : List ℕ} {b : ℕ}, Layout brk₀ t l'' → a ∈ l'' → b ∈ l'' →
      (hdr (Malloc2.free t (b + sizeofMetadata)).mem a).size = (hdr t.mem a).size := by
    intro t l'' b ht hat hbt
    rw [Malloc2.free, ht.headerOf_add hbt]
    simp only [ht.hdr_mark hbt true hat]
    split_ifs <;> rfl
  cases h with
  | smalloc h => exact halloc h
  | scalloc h => exact halloc h
  | sreallocNull h => exact halloc h
  | sfree hb => exact hfree hl ha hb
  | sreallocMoves hb _ hl' ht _ => rw [hfree hl' (ht.sub ha) (ht.sub hb), ht.sizes a ha]
  | write hb hx =>
    rw [hdr_eq_of_offHeaders (l := l) (m := s.mem) ha]
    intro y hy
    apply Function.update_of_ne
    rintro rfl
    exact hy (hl.offHeaders hb hx)
  | _ => rfl

end FirstFit

theorem blocks_stay {brk₀ : ℕ} {w w' : World} {ops : List Op} (hr : Run LooseStep w ops w') {l : List ℕ}
    (hl : Layout brk₀ w.st l) (hptrs : ∀ p ∈ w.returned, ∃ a ∈ l, p = a + sizeofMetadata) :
    ∃ l', Layout brk₀ w'.st l' ∧ (∀ p ∈ w'.returned, ∃ a ∈ l', p = a + sizeofMetadata) ∧
      ∀ a ∈ l, a ∈ l' ∧ (hdr w'.st.mem a).size = (hdr w.st.mem a).size := by
  induction hr with
  | nil => exact ⟨l, hl, hptrs, fun a ha => ⟨ha, rfl⟩⟩
  | snoc _ hstep ih =>
    obtain ⟨l₁, hl₁, hp₁, hkeep⟩ := ih
    obtain ⟨r, l₂, hl₂, heff, hp₂⟩ := hstep.effect hl₁ hp₁
    refine ⟨l₂, hl₂, hp₂, fun a ha => ?_⟩
    obtain ⟨ha₁, hsize⟩ := hkeep a ha
    exact ⟨heff.sub ha₁, (heff.sizes hl₁ ha₁).trans hsize⟩

/-- **First fit in every reachable state**: `smalloc` takes the lowest free block that is large enough and
changes nothing but its mark; otherwise it puts a new block at the end, or returns `NULL` and changes nothing
if `sbrk` fails. And whatever is called afterwards, blocks keep their addresses and sizes. -/
theorem first_fit {m : Mem} {brk₀ : ℕ} (h : 0 < brk₀) (h' : brk₀ < 2 ^ 64) {ops : List Op} {w : World}
    (hr : Run LooseStep (start m brk₀) ops w) :
    ∃ l, Layout brk₀ w.st l ∧
      (∀ ok size, 1 ≤ size → size ≤ maxSizeToAllocate → FirstFit ok w.st l size) ∧
      ∀ ops' w', Run LooseStep w ops' w' → ∃ l', Layout brk₀ w'.st l' ∧
        ∀ a ∈ l, a ∈ l' ∧ (hdr w'.st.mem a).size = (hdr w.st.mem a).size := by
  obtain ⟨l, hl, hptrs, -⟩ := blocks_stay hr (layout_start (m := m) h h') (by simp [start])
  refine ⟨l, hl, fun ok size h₁ h₂ => hl.firstFit ok h₁ h₂, fun ops' w' hr' => ?_⟩
  obtain ⟨l', hl', -, hkeep⟩ := blocks_stay hr' hl hptrs
  exact ⟨l', hl', hkeep⟩

/-- The first of two blocks has been released, and is large enough. -/
theorem first_fit_reuses : ∃ w s', Run LooseStep (start (fun _ => 0) 4096)
      [.smalloc true 100, .smalloc true 50, .sfree 4128] w ∧
    Returns (fun n => smalloc true n w.st 80) (s', 4128) := by
  obtain ⟨w, hw, hfit⟩ := (Option.any_eq_true _ _).mp (show ((callsWith
      (fun w op => decide (Admissible w.returned w.st op)) 3 (start (fun _ => 0) 4096)
      [.smalloc true 100, .smalloc true 50, .sfree 4128]).any fun w =>
        decide (w.st.head = 4096) && Fits w.st.mem 80 4096) = true by decide +kernel)
  rw [Bool.and_eq_true, decide_eq_true_iff] at hfit
  obtain ⟨hhead, hfit⟩ := hfit
  have hrun : Run LooseStep (start (fun _ => 0) 4096) [.smalloc true 100, .smalloc true 50, .sfree 4128] w :=
    run_of_callsWith (fun hop hs => ⟨of_decide_eq_true hop, _, hs⟩) hw
  obtain ⟨l, hl, hfirst, -⟩ := first_fit (by norm_num) (by norm_num) hrun
  have hl0 : l ≠ [] := by
    rintro rfl
    have := hl.blocks.linked
    rw [hhead] at this
    cases this
  have hmem : 4096 ∈ l := hhead ▸ hl.head_mem hl0
  exact ⟨w, _, hrun, (hfirst true 80 (by norm_num) (by decide)).reuses 4096 hmem hfit fun b hb _ => hl.le_head hb⟩

end OsHomework.Malloc2
