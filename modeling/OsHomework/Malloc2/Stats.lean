import OsHomework.Malloc2.Runs

/-!
# `malloc_2`: the layout and the statistics of every run

`GetNumberOfAllocatedBytes` does not add up the sizes: it subtracts the address of the first header
from that of the last and corrects for the headers in between, which it counts in an `int`.

* `Layout.numMetaDataBytes`, `Layout.numAllocatedBytes_iff`: the latter is right exactly as long as
  the number of blocks is an `int`;
* `StatsExact`: what the two statistics should be, and `Layout.statsExact_iff`;
* **`layout_and_statistics`**: every run keeps the layout, and its statistics are exact if and only if
  the list has at most `intMax` blocks; **`statistics_overflow`**: a run after which they are not.
-/

set_option autoImplicit false

namespace OsHomework.Malloc2

/-! ## The statistics of a layout -/

/-- The sum of the sizes of the blocks. -/
def totalSize (s : State) (l : List ℕ) : ℕ := (l.map fun a => (hdr s.mem a).size).sum

section Stats

variable {brk₀ : ℕ} {s : State} {l : List ℕ}

theorem sum_blockLen (m : Mem) (l : List ℕ) : (l.map (blockLen m)).sum =
    l.length * sizeofMetadata + (l.map fun a => (hdr m a).size).sum := by
  induction l with
  | nil => simp
  | cons a l ih =>
    rw [List.map_cons, List.sum_cons, ih, List.map_cons, List.sum_cons, blockLen, List.length_cons]
    ring

/-- The blocks fill the memory from `brk₀` to the break. -/
theorem Layout.total (h : Layout brk₀ s l) :
    brk₀ + l.length * sizeofMetadata + totalSize s l = s.brk := by
  by_cases hl : l = []
  · rw [hl, h.empty hl]
    simp [totalSize]
  · have := h.blocks.sum_len hl
    rw [(h.first hl).1, sum_blockLen] at this
    rw [totalSize]
    omega

theorem Layout.length_lt (h : Layout brk₀ s l) : l.length * sizeofMetadata < 2 ^ 64 := by
  have := h.total
  have := h.top
  omega

theorem Layout.numMetaDataBytes (h : Layout brk₀ s l) :
    Returns (fun n => numMetaDataBytes n s) (l.length * sizeofMetadata) := by
  have hlt := h.length_lt
  refine ⟨l.length + 1, fun n hn => ?_⟩
  show Malloc2.numMetaDataBytes n s = _
  rw [Malloc2.numMetaDataBytes, getNumberOfAllocatedBlocks, forEach, walk_spec h.blocks.linked hn,
    foldlM_count (by unfold sizeofMetadata at hlt; omega), Outcome.ret_bind, zero_add,
    Nat.mod_eq_of_lt hlt]

/-- What the loop of `GetNumberOfAllocatedBytes` comes to. -/
theorem Layout.numAllocatedBytes_eq (h : Layout brk₀ s l) {n : ℕ} (hn : l.length < n) :
    numAllocatedBytes n s = if l.length ≤ intMax then .ret (totalSize s l) else .ub := by
  rw [numAllocatedBytes, getNumberOfAllocatedBytes]
  rcases List.eq_nil_or_concat l with rfl | ⟨l, z, rfl⟩
  · rw [if_pos (show s.head = 0 from h.blocks.linked), if_pos (show [].length ≤ intMax from Nat.zero_le _)]
    rfl
  · rw [List.concat_eq_append] at h hn ⊢
    obtain ⟨hhead, -⟩ := h.first (by simp)
    have hpos := h.pos
    have htop := h.top
    have htotal := h.total
    have hz := h.le_head (a := z) (by simp)
    have hlast : z + blockLen s.mem z = s.brk := h.blocks.last z (by simp)
    rw [if_neg (by omega), forEach, walk_spec h.blocks.linked hn, foldlM_count_int (Nat.zero_le _), zero_add]
    by_cases hle : (l ++ [z]).length ≤ intMax
    · rw [if_pos hle, if_pos hle, Outcome.ret_bind, List.getLastD_concat]
      apply congrArg Outcome.ret
      -- the last block ends at the break, and all the headers but one are subtracted
      rw [List.length_append, List.length_singleton] at htotal ⊢
      unfold blockLen at hlast
      unfold sizeofMetadata at *
      rw [hhead, subSize_of_le hz (by omega), Nat.mod_eq_of_lt (by omega),
        subSize_of_le (by omega) (by omega)]
      omega
    · rw [if_neg hle, if_neg hle]
      rfl

/-- **`_num_allocated_bytes()` is the sum of the sizes if and only if the number of blocks is an
`int`.** -/
theorem Layout.numAllocatedBytes_iff (h : Layout brk₀ s l) :
    Returns (fun n => numAllocatedBytes n s) (totalSize s l) ↔ l.length ≤ intMax := by
  constructor
  · rintro ⟨N, hN⟩
    have hn := hN (max N (l.length + 1)) (le_max_left _ _)
    beta_reduce at hn
    rw [h.numAllocatedBytes_eq (lt_of_lt_of_le (Nat.lt_succ_self _) (le_max_right _ _))] at hn
    by_contra hlt
    rw [if_neg hlt] at hn
    cases hn
  · intro hle
    refine ⟨l.length + 1, fun n hn => ?_⟩
    show numAllocatedBytes n s = _
    rw [h.numAllocatedBytes_eq hn, if_pos hle]

/-- **What the statistics should be**: `_num_allocated_bytes()` is the sum of the sizes of the blocks,
and together with `_num_meta_data_bytes()` it is the distance from the break before the first
allocation to the current one. -/
def StatsExact (brk₀ : ℕ) (s : State) (l : List ℕ) : Prop :=
  ∃ bytes metaData, Returns (fun n => numAllocatedBytes n s) bytes ∧
    Returns (fun n => numMetaDataBytes n s) metaData ∧
    bytes = (l.map fun a => (hdr s.mem a).size).sum ∧ brk₀ + (bytes + metaData) = s.brk

theorem Layout.statsExact_iff (h : Layout brk₀ s l) : StatsExact brk₀ s l ↔ l.length ≤ intMax := by
  rw [← h.numAllocatedBytes_iff]
  constructor
  · rintro ⟨bytes, metaData, hb, -, rfl, -⟩
    exact hb
  · intro hb
    have := h.total
    exact ⟨_, _, hb, h.numMetaDataBytes, rfl, by omega⟩

end Stats

/-! ## Every run -/

/-- The invariant of the runs in which any pointer ever returned may be used. -/
def LooseInv (brk₀ : ℕ) (w : World) : Prop :=
  ∃ l, Layout brk₀ w.st l ∧ ∀ p ∈ w.returned, ∃ a ∈ l, p = a + sizeofMetadata

theorem looseInv_start {m : Mem} {brk₀ : ℕ} (h : 0 < brk₀) (h' : brk₀ < 2 ^ 64) :
    LooseInv brk₀ (start m brk₀) :=
  ⟨[], layout_start h h', fun _ hp => absurd hp List.not_mem_nil⟩

/-- A step does what `Effect` says, and the pointers returned are still those of blocks. -/
theorem LooseStep.effect {brk₀ : ℕ} {w w' : World} {op : Op} {l : List ℕ} (hs : LooseStep w op w')
    (hl : Layout brk₀ w.st l) (hptrs : ∀ p ∈ w.returned, ∃ a ∈ l, p = a + sizeofMetadata) :
    ∃ r l', Layout brk₀ w'.st l' ∧ Effect brk₀ w.st l op w'.st r l' ∧
      ∀ p ∈ w'.returned, ∃ a ∈ l', p = a + sizeofMetadata := by
  obtain ⟨hop, r, hc⟩ := hs
  obtain ⟨l', hl', he⟩ := hl.calls hptrs hop hc
  refine ⟨r, l', hl', he, fun p hp => ?_⟩
  have hold : p ∈ w.returned → ∃ a ∈ l', p = a + sizeofMetadata := fun hp => by
    obtain ⟨a, ha, rfl⟩ := hptrs p hp
    exact ⟨a, he.sub ha, rfl⟩
  rw [hc.2.1, track] at hp
  split_ifs at hp with hr
  · exact hold hp
  · rcases List.mem_cons.mp hp with rfl | hp
    · exact he.result.resolve_left hr
    · exact hold hp

theorem LooseInv.step {brk₀ : ℕ} {w w' : World} {op : Op} (h : LooseInv brk₀ w)
    (hs : LooseStep w op w') : LooseInv brk₀ w' := by
  obtain ⟨l, hl, hptrs⟩ := h
  obtain ⟨r, l', hl', -, hptrs'⟩ := hs.effect hl hptrs
  exact ⟨l', hl', hptrs'⟩

/-- **Every run keeps the layout**: the list is in address order, without gaps, doubly linked, and
fills the memory from the first break to the current one. **Its statistics are exact if and only if
it has at most `intMax` blocks.** -/
theorem layout_and_statistics {m : Mem} {brk₀ : ℕ} (h : 0 < brk₀) (h' : brk₀ < 2 ^ 64) {ops : List Op}
    {w : World} (hr : Run LooseStep (start m brk₀) ops w) :
    ∃ l, Layout brk₀ w.st l ∧ (StatsExact brk₀ w.st l ↔ l.length ≤ intMax) := by
  obtain ⟨l, hl, -⟩ := hr.invariant (looseInv_start h h') fun _ _ _ hi hs => hi.step hs
  exact ⟨l, hl, hl.statsExact_iff⟩

theorem layout_and_statistics_two_blocks :
    ∃ w, Run LooseStep (start (fun _ => 0) 4096) (List.replicate 2 (.smalloc true 1)) w ∧
      ∃ l, Layout 4096 w.st l ∧ (StatsExact 4096 w.st l ↔ l.length ≤ intMax) := by
  obtain ⟨w, -, hr, -⟩ := exists_run_smallocs (fun _ => 0) 4096 (by norm_num)
    LooseStep.smalloc 2 (by norm_num)
  exact ⟨w, hr, layout_and_statistics (by norm_num) (by norm_num) hr⟩

/-- **After 2³¹ allocations of one byte `_num_allocated_bytes()` overflows.** -/
theorem statistics_overflow :
    ∃ w, Run LooseStep (start (fun _ => 0) 4096) (List.replicate (2 ^ 31) (.smalloc true 1)) w ∧
      ∀ l, Layout 4096 w.st l → ¬ StatsExact 4096 w.st l := by
  obtain ⟨w, l, hr, hl, hn, -⟩ := exists_run_smallocs (fun _ => 0) 4096 (by norm_num)
    LooseStep.smalloc (2 ^ 31) (by norm_num)
  refine ⟨w, hr, fun l' hl' hs => ?_⟩
  have hle := hl'.statsExact_iff.mp hs
  rw [← hl.blocks.linked.unique hl'.blocks.linked, hn, intMax] at hle
  omega

end OsHomework.Malloc2
