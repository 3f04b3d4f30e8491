import OsHomework.Malloc2.FirstFit
import OsHomework.Malloc3.Small

/-!
# `scalloc`, in both allocators

`scalloc(num, size)` multiplies modulo 2⁶⁴ before it looks at the limit.

* `ScallocOk`: what is expected of a pointer that it returns;
* `Refuses`: the allocator has no block for the request, and the system gives none;
* **`scallocOk_iff`**: a product that does not fit is served wrongly unless the wrapped one is refused;
* **`scalloc_ok_iff`**: the two allocators together.
-/

set_option autoImplicit false

namespace OsHomework

/-- `n` zero bytes at `p`. -/
def ZeroAt (m : Mem) (p n : ℕ) : Prop := ∀ i < n, m (p + i) = 0

theorem zeroAt_fill (m : Mem) (p n : ℕ) : ZeroAt (m.fill p n 0) p n := by
  intro i hi
  exact if_pos ⟨Nat.le_add_right p i, Nat.add_lt_add_left hi p⟩

namespace Malloc2

/-- **What is expected of `scalloc`**: a pointer that is not `NULL` is that of a block with room for `num`
times `size` bytes, all of them zero, and this product is within the limit. -/
def ScallocOk (ok : Bool) (s : State) (num size : ℕ) : Prop :=
  ∃ s' p, Returns (fun n => scalloc ok n s num size) (s', p) ∧
    (p ≠ 0 → (1 ≤ num * size ∧ num * size ≤ maxSizeToAllocate) ∧ num * size ≤ (hdr s'.mem (headerOf p)).size ∧
      ZeroAt s'.mem p (num * size))

/-- No block fits, and the break cannot be moved. -/
def Refuses (ok : Bool) (s : State) (l : List ℕ) (size : ℕ) : Prop :=
  (∀ a ∈ l, ¬ Fits s.mem size a) ∧ sbrk ok s (size + sizeofMetadata) = none

section Scalloc

variable {brk₀ : ℕ} {s : State} {l : List ℕ} {ok : Bool} {size : ℕ}

theorem Layout.malloc_refuses (h : Layout brk₀ s l) (hr : Refuses ok s l size) :
    Returns (fun n => Malloc2.malloc ok n s size) (s, 0) := by
  have := h.malloc_of_not_fits ok hr.1
  rwa [hr.2] at this

/-- **A request that is not refused gets a block.** -/
theorem Layout.malloc_serves (h : Layout brk₀ s l) (hr : ¬ Refuses ok s l size) :
    ∃ s' l' a, Returns (fun n => Malloc2.malloc ok n s size) (s', a + sizeofMetadata) ∧
      Layout brk₀ s' l' ∧ Taken s s' l l' size a := by
  refine (h.malloc ok size).resolve_left fun hnull => hr ?_
  have hne : ∀ s' a, ¬ Returns (fun n => Malloc2.malloc ok n s size) (s', a + sizeofMetadata) := by
    intro s' a hret
    have := congrArg Prod.snd (hnull.unique hret)
    simp [sizeofMetadata] at this
  have hf : ∀ a ∈ l, ¬ Fits s.mem size a := by
    intro a ha hfit
    obtain ⟨b, hb⟩ := Option.isSome_iff_exists.mp (List.find?_isSome.mpr ⟨a, ha, hfit⟩)
    refine hne { s with mem := setIsFree s.mem b false } b ⟨l.length + 1, fun n hn => ?_⟩
    simp only [Malloc2.malloc, findBlock_spec h.blocks.linked hn, hb, Outcome.ret_bind]
  refine ⟨hf, ?_⟩
  have hret := h.malloc_of_not_fits ok hf
  rcases hs : sbrk ok s (size + sizeofMetadata) with _ | ⟨s', curr⟩
  · rfl
  · rw [hs] at hret
    exact absurd hret (hne _ _)

theorem hdr_fill (m : Mem) (a n : ℕ) (c : UInt8) : hdr (m.fill (a + sizeofMetadata) n c) a = hdr m a :=
  hdr_congr fun _ _ hx => Mem.fill_out (.inl (by unfold sizeofMetadata; omega))

/-- A product that does not fit is above the limit. -/
theorem Layout.scallocOk_iff (h : Layout brk₀ s l) (num : ℕ) : ScallocOk ok s num size ↔
    num * size < 2 ^ 64 ∨ maxSizeToAllocate < num * size % 2 ^ 64 ∨
      Refuses ok s l (num * size % 2 ^ 64) := by
  have hmax : maxSizeToAllocate < 2 ^ 64 := by unfold maxSizeToAllocate; norm_num
  by_cases hbad : size = 0 ∨ num = 0 ∨ maxSizeToAllocate < num * size % 2 ^ 64
  · have hnull : ScallocOk ok s num size := by
      refine ⟨s, 0, ?_, fun hne => absurd rfl hne⟩
      simp only [Malloc2.scalloc, if_pos hbad]
      exact .const rfl
    refine iff_of_true hnull ?_
    rcases hbad with rfl | rfl | hlt
    · exact .inl (by simp)
    · exact .inl (by simp)
    · exact .inr (.inl hlt)
  · by_cases hr : Refuses ok s l (num * size % 2 ^ 64)
    · refine iff_of_true ⟨s, 0, ?_, fun hne => absurd rfl hne⟩ (.inr (.inr hr))
      simp only [Malloc2.scalloc, if_neg hbad]
      exact (h.malloc_refuses hr).bind (.const rfl)
    · obtain ⟨s', l', a, hret, hl, ht⟩ := h.malloc_serves hr
      have hs : Returns (fun n => Malloc2.scalloc ok n s num size)
          ({ s' with mem := s'.mem.fill (a + sizeofMetadata) (num * size % 2 ^ 64) 0 },
            a + sizeofMetadata) := by
        simp only [Malloc2.scalloc, if_neg hbad]
        exact hret.bind (.const (if_neg (by simp [sizeofMetadata])))
      constructor
      · rintro ⟨t, p, hret', hok⟩
        obtain ⟨rfl, rfl⟩ := Prod.mk.inj (hs.unique hret')
        obtain ⟨⟨-, hle⟩, -⟩ := hok (by simp [sizeofMetadata])
        exact .inl (by omega)
      · rintro (hlt | hlt | hr')
        · rw [Nat.mod_eq_of_lt hlt] at hs hbad ht
          refine ⟨_, _, hs, fun _ => ⟨⟨?_, by omega⟩, ?_, zeroAt_fill _ _ _⟩⟩
          · exact Nat.pos_of_ne_zero (Nat.mul_ne_zero (fun h0 => hbad (.inr (.inl h0))) fun h0 => hbad (.inl h0))
          · rw [hl.headerOf_add ht.mem, hdr_fill]
            exact ht.fits
        · exact absurd (.inr (.inr hlt)) hbad
        · exact absurd hr' hr

end Scalloc

end Malloc2

namespace Malloc3

/-- **What is expected of `scalloc`**, as in the first-fit allocator. -/
def ScallocOk (sys : Sys) (s : State) (num size : ℕ) : Prop :=
  ∃ s' p, Returns (fun n => scalloc sys n s num size) (s', p) ∧
    (p ≠ 0 → (1 ≤ num * size ∧ num * size ≤ maxSizeToAllocate) ∧ num * size ≤ (hdr s'.mem (headerOf p)).size ∧
      ZeroAt s'.mem p (num * size))

/-- The allocator after its set-up, if that is still to be made. -/
def ready (sys : Sys) (s : State) : State := if s.head = 0 then initArena s sys.sbrkOk else s

/-- No free block is large enough, or the request is to be mapped and `mmap` fails. -/
def Refuses (sys : Sys) (s : State) (size : ℕ) : Prop :=
  (size < maxSize ∧ ∀ k ≤ maxOrder, size ≤ payloadSize k → s.freed k = []) ∨
    (maxSize ≤ size ∧ sys.mmapAddr = none)

section Scalloc

variable {sys : Sys} {s : State} {L : List (ℕ × ℕ)} {size : ℕ}

theorem malloc_ready (h : (ready sys s).head ≠ 0) (n : ℕ) :
    malloc sys n s size = malloc sys n (ready sys s) size := by
  unfold ready at *
  split_ifs at * with hs
  · conv_lhs => rw [malloc, if_pos hs]
    conv_rhs => rw [malloc, if_neg h]
  · rfl

theorem malloc_refuses (h : RI s) (h1 : 1 ≤ size) (hmax : size ≤ maxSizeToAllocate)
    (hr : Refuses sys s size) : Returns (fun n => malloc sys n s size) (s, 0) := by
  obtain ⟨l, hl⟩ := h
  have hne : s.head ≠ 0 := hl.arena.pos.ne'
  refine ⟨0, fun n _ => ?_⟩
  rcases hr with ⟨hlt, hno⟩ | ⟨hmin, hsys⟩
  · refine malloc_none sys hne hl.repr.lists h1 hlt fun k a hfit ha => ?_
    have hk := hl.tiles.le_max ha
    have hmem := (hl.repr.lists.mem hk (s.head + startSize * a)).mpr ⟨a, rfl, ha⟩
    rw [hno k hk hfit] at hmem
    exact List.not_mem_nil hmem
  · show malloc sys n s size = _
    rw [malloc, if_neg hne]
    simp only [if_neg (show ¬ (size = 0 ∨ maxSizeToAllocate < size) by omega), if_pos hmin, hsys]

/-- **A request that is not refused gets a block.** -/
theorem gives_of_not_refuses (h : RI s) (hm : Maps s.head s.cookie s.mem s.mmapHead L)
    (hf : maxSize ≤ size → FreshAnswer s.head L sys size) (h1 : 1 ≤ size) (hmax : size ≤ maxSizeToAllocate)
    (hr : ¬ Refuses sys s size) : Gives sys s size := by
  unfold Refuses at hr
  push Not at hr
  by_cases hmin : maxSize ≤ size
  · obtain ⟨addr, hsys⟩ := Option.ne_none_iff_exists'.mp (hr.2 hmin)
    exact gives_large h hm hsys (hf hmin addr hsys) hmin hmax
  · obtain ⟨k, hk, hfit, hfree⟩ := hr.1 (by omega)
    exact gives_small h hk hfit hfree h1 (by omega)

theorem hdr_fill (m : Mem) (a n : ℕ) (c : UInt8) : hdr (m.fill (a + sizeofMetadata) n c) a = hdr m a :=
  hdr_congr fun _ _ hx => Mem.fill_out (.inl (by unfold sizeofMetadata; omega))

/-- A product that does not fit is above the limit. -/
theorem scallocOk_iff {num : ℕ} (h : RI (ready sys s))
    (hm : Maps (ready sys s).head (ready sys s).cookie (ready sys s).mem (ready sys s).mmapHead L)
    (hf : maxSize ≤ num * size % 2 ^ 64 → FreshAnswer (ready sys s).head L sys (num * size % 2 ^ 64)) :
    ScallocOk sys s num size ↔ num * size < 2 ^ 64 ∨ num * size % 2 ^ 64 = 0 ∨
      maxSizeToAllocate < num * size % 2 ^ 64 ∨ Refuses sys (ready sys s) (num * size % 2 ^ 64) := by
  have hmax : maxSizeToAllocate < 2 ^ 64 := by unfold maxSizeToAllocate; norm_num
  have hne : (ready sys s).head ≠ 0 := by
    obtain ⟨l, hl⟩ := h
    exact hl.arena.pos.ne'
  have hready : ∀ n, malloc sys n s (num * size % 2 ^ 64) = malloc sys n (ready sys s) (num * size % 2 ^ 64) :=
    fun n => malloc_ready hne n
  by_cases hbad : size = 0 ∨ num = 0 ∨ maxSizeToAllocate < num * size % 2 ^ 64
  · have hnull : ScallocOk sys s num size := by
      refine ⟨s, 0, ⟨0, fun n _ => ?_⟩, fun hne => absurd rfl hne⟩
      simp only [scalloc, if_pos hbad]
    refine iff_of_true hnull ?_
    rcases hbad with rfl | rfl | hlt
    · exact .inl (by simp)
    · exact .inl (by simp)
    · exact .inr (.inr (.inl hlt))
  by_cases hnull : num * size % 2 ^ 64 = 0 ∨ Refuses sys (ready sys s) (num * size % 2 ^ 64)
  · have hret : Returns (fun n => malloc sys n (ready sys s) (num * size % 2 ^ 64)) (ready sys s, 0) := by
      by_cases h0 : num * size % 2 ^ 64 = 0
      · refine ⟨0, fun n _ => ?_⟩
        show malloc sys n (ready sys s) _ = _
        rw [h0, malloc, if_neg hne]
        simp only [true_or, if_true]
      · exact malloc_refuses h (by omega) (by omega) (hnull.resolve_left h0)
    refine iff_of_true ⟨ready sys s, 0, ?_, fun hne => absurd rfl hne⟩ (.inr ?_)
    · simp only [scalloc, if_neg hbad, hready]
      exact hret.bind (.const rfl)
    · exact hnull.imp_right fun hr => .inr hr
  · rw [not_or] at hnull
    obtain ⟨s', a, hret, ha, hle⟩ := gives_of_not_refuses h hm hf (by omega) (by omega) hnull.2
    have hs : Returns (fun n => scalloc sys n s num size)
        ({ s' with mem := s'.mem.fill (a + sizeofMetadata) (num * size % 2 ^ 64) 0 }, a + sizeofMetadata) := by
      simp only [scalloc, if_neg hbad, hready]
      exact hret.bind (.const (if_neg (by simp [sizeofMetadata])))
    constructor
    · rintro ⟨t, p, hret', hok⟩
      obtain ⟨rfl, rfl⟩ := Prod.mk.inj (hs.unique hret')
      obtain ⟨⟨-, hmax'⟩, -⟩ := hok (by simp [sizeofMetadata])
      exact .inl (by omega)
    · rintro (hlt | h0 | hlt | hr)
      · rw [Nat.mod_eq_of_lt hlt] at hs hbad hle
        refine ⟨_, _, hs, fun _ => ⟨⟨?_, by omega⟩, ?_, zeroAt_fill _ _ _⟩⟩
        · exact Nat.pos_of_ne_zero (Nat.mul_ne_zero (fun h0 => hbad (.inr (.inl h0))) fun h0 => hbad (.inl h0))
        · rw [headerOf_add ha, hdr_fill]
          exact hle
      · exact absurd h0 hnull.1
      · exact absurd (.inr (.inr hlt)) hbad
      · exact absurd hr hnull.2

end Scalloc

end Malloc3

/-- **`scalloc` keeps its promise exactly if the product fits, or the wrapped product is refused** by the
limit or by the allocator. A wrapped product of 0 is refused by the buddy allocator and served by the
first-fit allocator. -/
theorem scalloc_ok_iff {brk₀ : ℕ} {s₂ : Malloc2.State} {l : List ℕ} (h₂ : Malloc2.Layout brk₀ s₂ l)
    (ok : Bool) {sys : Malloc3.Sys} {s₃ : Malloc3.State} {L : List (ℕ × ℕ)}
    (h₃ : Malloc3.RI (Malloc3.ready sys s₃))
    (hm : Malloc3.Maps (Malloc3.ready sys s₃).head (Malloc3.ready sys s₃).cookie (Malloc3.ready sys s₃).mem
      (Malloc3.ready sys s₃).mmapHead L) (num size : ℕ)
    (hf : Malloc3.maxSize ≤ num * size % 2 ^ 64 →
      Malloc3.FreshAnswer (Malloc3.ready sys s₃).head L sys (num * size % 2 ^ 64)) :
    (Malloc2.ScallocOk ok s₂ num size ↔ num * size < 2 ^ 64 ∨
      Malloc2.maxSizeToAllocate < num * size % 2 ^ 64 ∨ Malloc2.Refuses ok s₂ l (num * size % 2 ^ 64)) ∧
    (Malloc3.ScallocOk sys s₃ num size ↔ num * size < 2 ^ 64 ∨ num * size % 2 ^ 64 = 0 ∨
      Malloc3.maxSizeToAllocate < num * size % 2 ^ 64 ∨
        Malloc3.Refuses sys (Malloc3.ready sys s₃) (num * size % 2 ^ 64)) :=
  ⟨h₂.scallocOk_iff num, Malloc3.scallocOk_iff h₃ hm hf⟩

section Examples

open Malloc3

/-- The first request of a program finds both allocators in order. -/
theorem ready_boot : RI (ready ⟨true, none⟩ (boot (fun _ => 0) 0 4198400)) ∧
    Maps (ready ⟨true, none⟩ (boot (fun _ => 0) 0 4198400)).head
      (ready ⟨true, none⟩ (boot (fun _ => 0) 0 4198400)).cookie
      (ready ⟨true, none⟩ (boot (fun _ => 0) 0 4198400)).mem
      (ready ⟨true, none⟩ (boot (fun _ => 0) 0 4198400)).mmapHead [] := by
  have hi := inv_initArena (fun _ => 0) boots_example true
  have he : ready ⟨true, none⟩ (boot (fun _ => 0) 0 4198400) = initArena (boot (fun _ => 0) 0 4198400) true :=
    if_pos rfl
  rw [he]
  obtain ⟨l, hl, -⟩ := hi.repr.riList hi.arena hi.head
  exact ⟨⟨l, hl⟩, hi.head ▸ hi.maps⟩

/-- Three objects of 100 bytes, as the first request of a program. -/
theorem scalloc_ok_three : Malloc2.ScallocOk true (Malloc2.start (fun _ => 0) 4096).st 3 100 ∧
    Malloc3.ScallocOk ⟨true, none⟩ (boot (fun _ => 0) 0 4198400) 3 100 := by
  have hsmall : ¬ maxSize ≤ 3 * 100 % 2 ^ 64 := by unfold maxSize; norm_num
  have hl : Malloc2.Layout 4096 (Malloc2.start (fun _ => 0) 4096).st [] :=
    Malloc2.layout_start (by norm_num) (by norm_num)
  obtain ⟨h₂, h₃⟩ := scalloc_ok_iff hl true
    ready_boot.1 ready_boot.2 3 100 fun h => absurd h hsmall
  exact ⟨h₂.mpr (.inl (by norm_num)), h₃.mpr (.inl (by norm_num))⟩

/-- **2⁶¹ + 1 objects of 8 bytes wrap around to 8 bytes**, and both allocators serve them. -/
theorem scalloc_wraps : ¬ Malloc2.ScallocOk true (Malloc2.start (fun _ => 0) 4096).st (2 ^ 61 + 1) 8 ∧
    ¬ Malloc3.ScallocOk ⟨true, none⟩ (boot (fun _ => 0) 0 4198400) (2 ^ 61 + 1) 8 := by
  have hwrap : (2 ^ 61 + 1) * 8 % 2 ^ 64 = 8 := by norm_num
  have hbig : ¬ (2 ^ 61 + 1) * 8 < 2 ^ 64 := by norm_num
  constructor
  · have hl : Malloc2.Layout 4096 (Malloc2.start (fun _ => 0) 4096).st [] :=
      Malloc2.layout_start (by norm_num) (by norm_num)
    rw [hl.scallocOk_iff, hwrap]
    rintro (h | h | ⟨-, h⟩)
    · exact hbig h
    · unfold Malloc2.maxSizeToAllocate at h
      omega
    · simp [Malloc2.sbrk, Malloc2.start, Malloc2.sizeofMetadata] at h
  · rw [scallocOk_iff ready_boot.1 ready_boot.2 fun h => absurd (hwrap ▸ h) (by unfold maxSize; norm_num), hwrap]
    rintro (h | h | h | ⟨-, h⟩ | ⟨h, -⟩)
    · exact hbig h
    · omega
    · unfold maxSizeToAllocate at h
      omega
    · have hfree := h maxOrder le_rfl (by unfold payloadSize startSize maxOrder sizeofMetadata; norm_num)
      exact List.not_mem_nil (hfree ▸ first_lowest.1)
    · unfold maxSize at h
      omega

end Examples

end OsHomework
